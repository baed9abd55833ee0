import Mathlib
import Lasagne.Irq.Handler

namespace Lasagne.Syscall
open ByteMemory X86 Switch

def userRspField : Nat := 0

def syscallTypeField : Nat := 16

def syscallByInterrupt : BitVec 64 := 0

def syscallBySyscall : BitVec 64 := 1

def syscallInt : BitVec 64 := 0x30

-- the memory when a system call is made; thread is what current_thread and KERNEL_GS_BASE hold,
-- interruptReturn where the call in the handler of interrupts returns to
structure Image where
  mem : Memory
  syscallCount : Nat
  syscallTable : Nat
  idtHandler : BitVec 64
  interruptReturn : BitVec 64
  sysYield : BitVec 64
  sysPrintk : BitVec 64
  thread : Nat
  stack : Nat
  count : (loadWord mem syscallCount).setWidth 32 = 2#32
  table : Holds mem syscallTable [sysYield, sysPrintk]
  top : loadWord mem (thread + stackTopField) = BitVec.ofNat 64 (stack + defaultStackSize)
  bounds : stack + defaultStackSize < 2 ^ 64 ∧ syscallTable + 16 ≤ 2 ^ 64
  threadApart : Apart thread threadSize stack defaultStackSize
  countApart : Apart syscallCount 8 stack defaultStackSize ∧ Apart syscallCount 8 thread threadSize
  tableApart : Apart syscallTable 16 stack defaultStackSize ∧ Apart syscallTable 16 thread threadSize

inductive Outcome where
  | rejected (syscallNumber : BitVec 32)
  | called (handler : BitVec 64) (arguments : List (BitVec 64))

def argumentRegs : List Reg := [.rdi, .rsi, .rdx, .rcx, .r8, .r9]

section fast
variable (img : Image)

def syscallInstruction (s : Machine) : Machine :=
  { (s.set .rcx s.rip).set .r11 s.rflags with rflags := s.rflags &&& ~~~rflagsIf }

-- from swapgs to mov rcx, r10
def changeStack (s : Machine) : Machine :=
  let s := { s with mem := storeWord s.mem (img.thread + userRspField) (s.reg .rsp) }
  let s := s.set .rsp (loadWord s.mem (img.thread + stackTopField))
  let s := { s with mem := storeWord s.mem (img.thread + syscallTypeField) syscallBySyscall }
  let s := s.push (s.reg .rcx)
  let s := s.push (s.reg .r11)
  s.set .rcx (s.reg .r10)

-- up to the calls of bad_syscall and of the handler
def syscallFastHandler (s : Machine) : Machine × Outcome :=
  let s := changeStack img s
  if s.reg .rax < loadWord s.mem img.syscallCount then
    let s := s.set .rax (s.reg .rax <<< 3)
    let s := s.set .rax (loadWord s.mem (BitVec.ofNat 64 img.syscallTable + s.reg .rax).toNat)
    (s, .called (s.reg .rax) (argumentRegs.map s.reg))
  else
    let s := s.set .rdi (s.reg .rax)
    (s, .rejected ((s.reg .rdi).setWidth 32))

end fast

section interrupt
variable (img : Image)

-- the processor takes rsp0, rounded down to 16 bytes
def interrupt (s : Machine) : Machine :=
  [s.ss.setWidth 64, s.reg .rsp, s.rflags, s.cs.setWidth 64, s.rip].foldl Machine.push
    (s.set .rsp (loadWord s.mem (img.thread + stackTopField) &&& ~~~15))

def irqRax : Nat := 0

def irqRdx : Nat := 24

def irqRsi : Nat := 32

def irqRdi : Nat := 40

-- the handler is called through a pointer to a function of three arguments
def syscallIntHandler (m : Memory) (registers : Nat) : Memory × Outcome :=
  let syscallNumber := loadWord m (registers + irqRax)
  if syscallNumber ≥ ((loadWord m img.syscallCount).setWidth 32).setWidth 64 then
    (m, .rejected (syscallNumber.setWidth 32))
  else
    let m := storeWord m (img.thread + syscallTypeField) syscallByInterrupt
    let handler := loadWord m (img.syscallTable + 8 * syscallNumber.toNat)
    (m, .called handler [loadWord m (registers + irqRdi), loadWord m (registers + irqRsi),
      loadWord m (registers + irqRdx)])

end interrupt

section entries
variable (img : Image) (c : Cpu)

def enterBySyscall : Outcome := (syscallFastHandler img (syscallInstruction ⟨c, img.mem⟩)).2

def enterByInterrupt : Outcome :=
  let s := Irq.handler img.idtHandler img.interruptReturn
    ((interrupt img ⟨c, img.mem⟩).push syscallInt)
  (syscallIntHandler img s.mem (s.reg .rdi).toNat).2

def arities : List Nat := [0, 6]

def requested (c : Cpu) : List (BitVec 64) :=
  [Reg.rdi, .rsi, .rdx, .r10, .r8, .r9].map c.reg

def Outcome.IsRejected : Outcome → Prop
  | .rejected _ => True
  | .called _ _ => False

def Outcome.Serves (img : Image) (c : Cpu) (number : Nat) : Outcome → Prop
  | .rejected _ => False
  | .called handler arguments =>
    handler = loadWord img.mem (img.syscallTable + 8 * number) ∧
      ∃ n, arities[number]? = some n ∧ arguments.take n = (requested c).take n

def EntriesAgree : Prop :=
  if ((loadWord img.mem img.syscallCount).setWidth 32).setWidth 64 ≤ c.reg .rax then
    (enterBySyscall img c).IsRejected ∧ (enterByInterrupt img c).IsRejected
  else
    (enterBySyscall img c).Serves img c (c.reg .rax).toNat ∧
      (enterByInterrupt img c).Serves img c (c.reg .rax).toNat

end entries

section proofs
variable {img : Image} {c : Cpu}

def Kept (img : Image) (m : Memory) : Prop :=
  loadWord m img.syscallCount = loadWord img.mem img.syscallCount ∧
    Holds m img.syscallTable [img.sysYield, img.sysPrintk]

theorem kept_of_outside {m : Memory}
    (h : ∀ x, x < img.stack ∨ img.stack + defaultStackSize ≤ x →
      x < img.thread ∨ img.thread + threadSize ≤ x → m x = img.mem x) : Kept img m := by
  have hc := img.countApart
  have ht := img.tableApart
  simp only [Apart] at hc ht
  refine ⟨loadWord_congr fun x hx hx' => h x (by omega) (by omega),
    img.table.congr fun x hx hx' => h x ?_ ?_⟩
  · simp only [List.length_cons, List.length_nil] at hx'
    omega
  · simp only [List.length_cons, List.length_nil] at hx'
    omega

theorem Kept.entry {m : Memory} (h : Kept img m) {number : Nat} (hn : number < 2) :
    loadWord m (img.syscallTable + 8 * number) =
      loadWord img.mem (img.syscallTable + 8 * number) := by
  obtain ⟨h0, h1, -⟩ := h.2
  obtain ⟨h0', h1', -⟩ := img.table
  rcases (show number = 0 ∨ number = 1 by omega) with rfl | rfl
  · exact h0.trans h0'.symm
  · exact h1.trans h1'.symm

theorem changeStack_spec (img : Image) {s : Machine} (hs : s.mem = img.mem) :
    Kept img (changeStack img s).mem ∧ (changeStack img s).reg .rcx = s.reg .r10 ∧
      ∀ r, r ≠ .rcx → r ≠ .rsp → (changeStack img s).reg r = s.reg r := by
  have hb := img.bounds
  have hta := img.threadApart
  simp only [Apart, threadSize, defaultStackSize] at hta hb
  set m := storeWord (storeWord img.mem (img.thread + userRspField) (s.reg .rsp))
    (img.thread + syscallTypeField) syscallBySyscall with hm
  have hout (x : Nat) (hx : x < img.thread ∨ img.thread + threadSize ≤ x) : m x = img.mem x := by
    simp only [userRspField, syscallTypeField, threadSize] at hm hx
    rw [hm, storeWord_outside _ _ (by omega), storeWord_outside _ _ (by omega)]
  have htop : loadWord (storeWord img.mem (img.thread + userRspField) (s.reg .rsp))
      (img.thread + stackTopField) = BitVec.ofNat 64 (img.stack + defaultStackSize) := by
    rw [← img.top]
    exact loadWord_storeWord_apart _ _ (by simp only [userRspField, stackTopField]; omega)
  set t : Machine := { s.set .rsp (BitVec.ofNat 64 (img.stack + defaultStackSize)) with mem := m }
    with ht
  have htsp : t.sp = img.stack + defaultStackSize := by
    rw [ht]
    simp only [Machine.sp, set_reg, Function.update_self, BitVec.toNat_ofNat]
    exact Nat.mod_eq_of_lt img.bounds.1
  have heq : changeStack img s =
      ([s.reg .rcx, s.reg .r11].foldl Machine.push t).set .rcx (s.reg .r10) := by
    simp only [changeStack, set_mem, hs, htop]
    rfl
  obtain ⟨-, -, hreg, hmem⟩ := pushes_spec [s.reg .rcx, s.reg .r11] (s := t)
    (by rw [htsp]; simp [defaultStackSize])
  rw [htsp] at hmem
  simp only [List.length_cons, List.length_nil, defaultStackSize] at hmem
  rw [heq]
  refine ⟨kept_of_outside fun x hx hx' => ?_, ?_, fun r hr hr' => ?_⟩
  · rw [set_mem, hmem x (by rw [defaultStackSize] at hx; omega)]
    exact hout x hx'
  · rw [set_reg, Function.update_self]
  · rw [set_reg, Function.update_of_ne hr, hreg r hr', ht]
    exact Function.update_of_ne hr' _ _

theorem fast_eq (img : Image) (c : Cpu) : ∃ m, Kept img m ∧ enterBySyscall img c =
    if c.reg .rax < loadWord img.mem img.syscallCount then
      .called (loadWord m (BitVec.ofNat 64 img.syscallTable + c.reg .rax <<< 3).toNat) (requested c)
    else .rejected ((c.reg .rax).setWidth 32) := by
  obtain ⟨hk, hcx, hreg⟩ := changeStack_spec img (s := syscallInstruction ⟨c, img.mem⟩) rfl
  have hrax : (changeStack img (syscallInstruction ⟨c, img.mem⟩)).reg .rax = c.reg .rax :=
    hreg .rax (by decide) (by decide)
  refine ⟨_, hk, ?_⟩
  rw [enterBySyscall, syscallFastHandler]
  simp only [hrax, hk.1]
  by_cases hlt : c.reg .rax < loadWord img.mem img.syscallCount
  · rw [if_pos hlt, if_pos hlt]
    have hargs (r : Reg) (hr : r ∈ [Reg.rdi, .rsi, .rdx, .r8, .r9]) :
        (changeStack img (syscallInstruction ⟨c, img.mem⟩)).reg r = c.reg r := by
      simp only [List.mem_cons, List.not_mem_nil, or_false] at hr
      rcases hr with rfl | rfl | rfl | rfl | rfl <;> exact hreg _ (by decide) (by decide)
    have hcx' : (changeStack img (syscallInstruction ⟨c, img.mem⟩)).reg .rcx = c.reg .r10 := hcx
    simp [argumentRegs, requested, hargs, hcx']
  · rw [if_neg hlt, if_neg hlt]
    simp

theorem int_eq (img : Image) (c : Cpu) : ∃ m, Kept img m ∧ enterByInterrupt img c =
    if 2#64 ≤ c.reg .rax then .rejected ((c.reg .rax).setWidth 32)
    else .called (loadWord m (img.syscallTable + 8 * (c.reg .rax).toNat))
      [c.reg .rdi, c.reg .rsi, c.reg .rdx] := by
  have hta := img.threadApart
  simp only [Apart, threadSize, defaultStackSize] at hta
  set s : Machine := (⟨c, img.mem⟩ : Machine).set .rsp
    (loadWord img.mem (img.thread + stackTopField) &&& ~~~15#64) with hs
  have htop : s.sp = (img.stack + defaultStackSize) / 16 * 16 := by
    rw [hs, Machine.sp, set_reg, Function.update_self, img.top, Irq.aligned_toNat, BitVec.toNat_ofNat,
      Nat.mod_eq_of_lt img.bounds.1]
  rw [defaultStackSize] at htop
  set vs : List (BitVec 64) := [c.ss.setWidth 64, c.reg .rsp, c.rflags, c.cs.setWidth 64, c.rip,
    syscallInt] with hvs
  have hlen : 8 * vs.length = 48 := rfl
  have heq : (interrupt img ⟨c, img.mem⟩).push syscallInt = vs.foldl Machine.push s := rfl
  obtain ⟨hsp, -, hreg, hmem⟩ := pushes_spec vs (s := s) (by omega)
  rw [hlen] at hsp hmem
  have hreg' (r : Reg) (hr : r ≠ .rsp) : (vs.foldl Machine.push s).reg r = c.reg r := by
    rw [hreg r hr, hs, set_reg, Function.update_of_ne hr]
  obtain ⟨-, -, hdi, hv, hmem'⟩ := Irq.handler_saves img.idtHandler
    (u := vs.foldl Machine.push s) img.interruptReturn (by omega)
  generalize vs.foldl Machine.push s = u at heq hsp hmem hreg' hdi hv hmem'
  have henter : enterByInterrupt img c =
      (syscallIntHandler img (Irq.handler img.idtHandler img.interruptReturn u).mem
        ((Irq.handler img.idtHandler img.interruptReturn u).reg .rdi).toNat).2 := by
    rw [enterByInterrupt, heq]
  generalize Irq.handler img.idtHandler img.interruptReturn u = t at henter hdi hv hmem'
  obtain ⟨hax, -, -, hdx, hsi, hdi', -⟩ := hv
  rw [hreg' _ (by decide)] at hax hdx hsi hdi'
  have hout (x : Nat) (hx : x < img.stack ∨ img.stack + defaultStackSize ≤ x) :
      t.mem x = img.mem x := by
    rw [defaultStackSize] at hx
    rw [hmem' x (by omega), hmem x (by omega), hs, set_mem]
  have hk : Kept img t.mem := kept_of_outside fun x hx _ => hout x hx
  have hk' : Kept img (storeWord t.mem (img.thread + syscallTypeField) syscallByInterrupt) :=
    kept_of_outside fun x hx hx' => by
      rw [storeWord_outside _ _ (by rw [syscallTypeField]; rw [threadSize] at hx'; omega), hout x hx]
  have hstored (n : Nat) (hn : n ≤ 40) : loadWord (storeWord t.mem
      (img.thread + syscallTypeField) syscallByInterrupt) (u.sp - 120 + n) =
        loadWord t.mem (u.sp - 120 + n) :=
    loadWord_storeWord_apart _ _ (by rw [syscallTypeField]; omega)
  refine ⟨_, hk', ?_⟩
  rw [henter]
  simp only [syscallIntHandler, hdi, irqRax, irqRdi, irqRsi, irqRdx, Nat.add_zero, hax,
    hstored _ (Nat.le_refl 40), hstored 32 (by decide), hstored 24 (by decide), hk.1, img.count]
  rw [show loadWord t.mem (u.sp - 120 + 40) = c.reg .rdi from hdi',
    show loadWord t.mem (u.sp - 120 + 32) = c.reg .rsi from hsi,
    show loadWord t.mem (u.sp - 120 + 24) = c.reg .rdx from hdx]
  rw [show (2#32).setWidth 64 = 2#64 from rfl]
  by_cases h2 : c.reg .rax ≥ 2#64
  · rw [if_pos h2]
    exact (if_pos h2).symm
  · rw [if_neg h2]
    exact (if_neg h2).symm

theorem two_le_count (img : Image) : 2#64 ≤ loadWord img.mem img.syscallCount := by
  have hc := congrArg BitVec.toNat img.count
  rw [BitVec.toNat_setWidth] at hc
  rw [BitVec.le_def]
  have : (2#32).toNat = 2 := rfl
  have : (2#64).toNat = 2 := rfl
  omega

theorem fast_rejected_iff :
    (enterBySyscall img c).IsRejected ↔ loadWord img.mem img.syscallCount ≤ c.reg .rax := by
  obtain ⟨m, -, hm⟩ := fast_eq img c
  rw [hm]
  by_cases hlt : c.reg .rax < loadWord img.mem img.syscallCount
  · rw [if_pos hlt]
    exact ⟨fun h => h.elim, fun h => (BitVec.not_le.mpr hlt h).elim⟩
  · rw [if_neg hlt]
    exact ⟨fun _ => BitVec.not_lt.mp hlt, fun _ => trivial⟩

theorem fast_serves (h : c.reg .rax < 2#64) : (enterBySyscall img c).Serves img c (c.reg .rax).toNat := by
  obtain ⟨m, hk, hm⟩ := fast_eq img c
  have hlt : c.reg .rax < loadWord img.mem img.syscallCount := by
    have := two_le_count img
    rw [BitVec.lt_def] at h ⊢
    rw [BitVec.le_def] at this
    omega
  have hax : (c.reg .rax).toNat < 2 := h
  have hb := img.bounds.2
  have ha : (BitVec.ofNat 64 img.syscallTable + c.reg .rax <<< 3).toNat =
      img.syscallTable + 8 * (c.reg .rax).toNat := by
    rw [BitVec.toNat_add, BitVec.toNat_ofNat, BitVec.toNat_shiftLeft, Nat.shiftLeft_eq]
    omega
  rw [hm, if_pos hlt, ha, hk.entry hax]
  refine ⟨rfl, ?_⟩
  rcases (show (c.reg .rax).toNat = 0 ∨ (c.reg .rax).toNat = 1 by omega) with h0 | h1
  · exact ⟨0, by rw [h0]; rfl, rfl⟩
  · exact ⟨6, by rw [h1]; rfl, rfl⟩

theorem int_serves_iff (h : c.reg .rax < 2#64) :
    (enterByInterrupt img c).Serves img c (c.reg .rax).toNat ↔ c.reg .rax = 0 := by
  obtain ⟨m, hk, hm⟩ := int_eq img c
  have hax : (c.reg .rax).toNat < 2 := h
  rw [hm, if_neg (BitVec.not_le.mpr h), hk.entry hax]
  rcases (show (c.reg .rax).toNat = 0 ∨ (c.reg .rax).toNat = 1 by omega) with h0 | h1
  · exact ⟨fun _ => BitVec.eq_of_toNat_eq h0, fun _ => ⟨rfl, 0, by rw [h0]; rfl, rfl⟩⟩
  · refine ⟨?_, fun h => ?_⟩
    · rintro ⟨-, n, hn, hargs⟩
      rw [h1] at hn
      obtain rfl : 6 = n := Option.some.inj hn
      simpa [requested] using congrArg List.length hargs
    · rw [h] at h1
      exact absurd h1 (by decide)

end proofs

-- the interrupt passes three arguments only, and the instruction compares with eight bytes
theorem entries_agree_iff (img : Image) (c : Cpu) :
    EntriesAgree img c ↔ c.reg .rax = 0 ∨ loadWord img.mem img.syscallCount ≤ c.reg .rax := by
  rw [EntriesAgree, img.count, show (2#32).setWidth 64 = 2#64 from rfl]
  by_cases h2 : 2#64 ≤ c.reg .rax
  · have hint : (enterByInterrupt img c).IsRejected := by
      obtain ⟨m, -, hm⟩ := int_eq img c
      rw [hm, if_pos h2]
      trivial
    have h0 : c.reg .rax ≠ 0 := by
      rintro h0
      rw [h0] at h2
      exact absurd h2 (by decide)
    rw [if_pos h2, fast_rejected_iff]
    exact ⟨fun h => .inr h.1, fun h => ⟨h.resolve_left h0, hint⟩⟩
  · have hlt : c.reg .rax < 2#64 := BitVec.not_le.mp h2
    have hcount : ¬ loadWord img.mem img.syscallCount ≤ c.reg .rax :=
      fun h => h2 (BitVec.le_trans (two_le_count img) h)
    rw [if_neg h2, int_serves_iff hlt]
    exact ⟨fun h => .inl h.2, fun h => ⟨fast_serves hlt, h.resolve_right hcount⟩⟩

def sampleMemory (following : BitVec 32) : Memory :=
  storeWord (storeWord (storeWord (storeWord (fun _ => 0) 0x1000 (following ++ 2#32))
    0x2000 0x3000#64) 0x2008 0x4000#64) 0x5008 0x12000#64

theorem sampleMemory_count (following : BitVec 32) :
    loadWord (sampleMemory following) 0x1000 = following ++ 2#32 := by
  rw [sampleMemory, loadWord_storeWord_apart _ _ (by decide), loadWord_storeWord_apart _ _ (by decide),
    loadWord_storeWord_apart _ _ (by decide), loadWord_storeWord]

theorem sampleMemory_table (following : BitVec 32) :
    Holds (sampleMemory following) 0x2000 [0x3000#64, 0x4000#64] := by
  refine ⟨?_, ?_, trivial⟩
  · rw [sampleMemory, loadWord_storeWord_apart _ _ (by decide),
      loadWord_storeWord_apart _ _ (by decide), loadWord_storeWord]
  · rw [sampleMemory, loadWord_storeWord_apart _ _ (by decide), loadWord_storeWord]

theorem sampleMemory_top (following : BitVec 32) :
    loadWord (sampleMemory following) 0x5008 = 0x12000#64 := by
  rw [sampleMemory, loadWord_storeWord]

def sampleImage (following : BitVec 32) : Image where
  mem := sampleMemory following
  syscallCount := 0x1000
  syscallTable := 0x2000
  idtHandler := 0x100000
  interruptReturn := 0x101000
  sysYield := 0x3000
  sysPrintk := 0x4000
  thread := 0x5000
  stack := 0x10000
  count := by
    rw [sampleMemory_count, BitVec.setWidth_append]
    rfl
  table := sampleMemory_table following
  top := sampleMemory_top following
  bounds := by decide
  threadApart := by decide
  countApart := by decide
  tableApart := by decide

def sampleCpu (number : BitVec 64) : Cpu :=
  ⟨fun r => if r = .rax then number else 0, 0x400000, 0x202, 0x23, 0x1b⟩

-- sys_printk, and a number past the end of the table that the instruction lets through
theorem entries_disagree :
    ¬ EntriesAgree (sampleImage 0) (sampleCpu 1) ∧ ¬ EntriesAgree (sampleImage 1) (sampleCpu 2) := by
  constructor
  · intro h
    rw [EntriesAgree, (sampleImage 0).count, if_neg (by decide)] at h
    exact absurd ((int_serves_iff (by decide)).mp h.2) (by decide)
  · intro h
    rw [EntriesAgree, (sampleImage 1).count, if_pos (by decide)] at h
    have hcount : loadWord (sampleImage 1).mem (sampleImage 1).syscallCount = 0x100000002#64 :=
      sampleMemory_count 1
    have hle := fast_rejected_iff.mp h.1
    rw [hcount] at hle
    exact absurd hle (by decide)

end Lasagne.Syscall
