import Mathlib
import Lasagne.Switch.Threads

namespace Lasagne.Switch
open ByteMemory X86

section frames
variable (p : Placement code)

-- the words a routine pushes before it stores rsp, the last one first
def saves (reg : Reg → BitVec 64) : Kind → List (BitVec 64)
  | .int => [reg .rbp]
  | .sys => [reg .rbp, p.addr sysReturn, reg .r15, reg .r14, reg .r13, reg .r12, reg .rbx]

def frame (th : Thread) : List (BitVec 64) :=
  match th.saved with
  | .fresh main cs ss usermodeStack =>
    [0, p.addr leaveEntry] ++ List.replicate 15 0 ++ [0, main, cs, rflagsIf,
      if usermodeStack = 0 then BitVec.ofNat 64 th.stackTop else usermodeStack, ss]
  | .suspended kind ret reg => saves p reg kind ++ [ret]

def Thread.base (th : Thread) : Nat :=
  match th.saved with
  | .fresh _ _ _ _ => th.stackTop
  | .suspended _ _ reg => (reg .rsp).toNat

def savedSp (th : Thread) : Nat := th.base - 8 * (frame p th).length

def Saved.target : Saved → BitVec 64
  | .fresh main _ _ _ => main
  | .suspended _ ret _ => ret

def Saved.isFresh : Saved → Bool
  | .fresh _ _ _ _ => true
  | .suspended _ _ _ => false

def Resumed (th : Thread) (c : Cpu) : Prop :=
  match th.saved with
  | .fresh main cs ss usermodeStack =>
    c.rip = main ∧ c.cs = cs.setWidth 16 ∧ c.ss = ss.setWidth 16 ∧ c.rflags = rflagsIf ∧
      c.reg .rsp = (if usermodeStack = 0 then BitVec.ofNat 64 th.stackTop else usermodeStack) ∧
      ∀ r, r ≠ .rsp → c.reg r = 0
  | .suspended kind ret reg =>
    c.rip = ret ∧ c.reg .rsp = reg .rsp ∧ c.reg .rbp = reg .rbp ∧
      (kind = .sys → ∀ r ∈ [Reg.rbx, .r12, .r13, .r14, .r15], c.reg r = reg r)

end frames

section suspend
variable {p : Placement code} {s : Machine}

structure Suspends (p : Placement code) (kind : Kind) (s t : Machine) : Prop where
  rip : t.rip = p.addr 3
  rsp : t.reg .rsp = s.reg .rsi
  slot : (loadWord t.mem (s.reg .rdi).toNat).toNat = s.sp - 8 * (saves p s.reg kind).length
  saved : Holds t.mem (s.sp - 8 * (saves p s.reg kind).length) (saves p s.reg kind)
  frame : ∀ x, x < s.sp - 8 * (saves p s.reg kind).length ∨ s.sp ≤ x →
    x < (s.reg .rdi).toNat ∨ (s.reg .rdi).toNat + 8 ≤ x → t.mem x = s.mem x
  kept : ∀ r, r ≠ .rsp → t.reg r = s.reg r

theorem suspend_int (hs : s.rip = p.addr Kind.int.entry) (hsp : 8 ≤ s.sp)
    (hd : s.sp ≤ (s.reg .rdi).toNat ∨ (s.reg .rdi).toNat + 8 ≤ s.sp - 8) :
    ∃ t, steps p 3 s = some t ∧ Suspends p .int s t := by
  refine ⟨_, (steps_at hs rfl).trans ((steps_at rfl rfl).trans (steps_at rfl rfl)), ?_⟩
  have hmem : (s.push (s.reg .rbp)).mem = storeWord s.mem (s.sp - 8) (s.reg .rbp) := push_mem hsp
  have hnew : ((s.push (s.reg .rbp)).reg .rsp).toNat = s.sp - 8 := push_sp hsp
  have hdi : (s.push (s.reg .rbp)).reg .rdi = s.reg .rdi := push_reg (by decide)
  have hsi : (s.push (s.reg .rbp)).reg .rsi = s.reg .rsi := push_reg (by decide)
  refine ⟨rfl, ?_, ?_, ⟨?_, trivial⟩, fun x hx hx' => ?_, fun r hr => ?_⟩
  · simp only [exec, jump_reg, set_reg, Function.update_self]
    exact hsi
  · simp only [exec, jump_mem, set_mem, jump_reg, hdi, loadWord_storeWord]
    exact hnew
  · simp only [exec, jump_mem, set_mem, jump_reg, hdi, saves, List.length_singleton, Nat.mul_one]
    rw [loadWord_storeWord_apart _ _ (by omega), hmem, loadWord_storeWord]
  · simp only [saves, List.length_singleton, Nat.mul_one] at hx
    simp only [exec, jump_mem, set_mem, jump_reg, hdi]
    rw [storeWord_outside _ _ (by omega), hmem, storeWord_outside _ _ (by omega)]
  · simp only [exec, jump_reg, set_reg, Function.update_of_ne hr]
    exact push_reg hr

theorem suspend_sys (hs : s.rip = p.addr Kind.sys.entry) (hsp : 56 ≤ s.sp)
    (hd : s.sp ≤ (s.reg .rdi).toNat ∨ (s.reg .rdi).toNat + 8 ≤ s.sp - 56) :
    ∃ t, steps p 9 s = some t ∧ Suspends p .sys s t := by
  obtain ⟨t, ht, hrip, htsp, -, hreg, hin, hout⟩ := steps_pushes [.rbx, .r12, .r13, .r14, .r15] hs
    (by decide) (by decide) (by simp; omega)
  have hcall : steps p 1 t = some ((t.push (p.addr sysReturn)).jump (p.addr 0)) :=
    steps_at hrip rfl
  simp only [List.length_cons, List.length_nil] at htsp hin hout
  have htsp' : ((t.push (p.addr sysReturn)).jump (p.addr 0)).sp = s.sp - 48 := by
    rw [jump_sp, push_sp (by omega)]
    omega
  have hcreg (r : Reg) (hr : r ≠ .rsp) :
      ((t.push (p.addr sysReturn)).jump (p.addr 0)).reg r = s.reg r := by
    rw [jump_reg, push_reg hr, hreg r hr]
  have hcmem : ((t.push (p.addr sysReturn)).jump (p.addr 0)).mem =
      storeWord t.mem (s.sp - 48) (p.addr sysReturn) := by
    rw [jump_mem, push_mem (by omega), htsp]
    congr 1
  obtain ⟨u, hu, h⟩ := suspend_int (s := (t.push (p.addr sysReturn)).jump (p.addr 0)) rfl
    (by omega) (by rw [hcreg _ (by decide)]; omega)
  have hlow := h.frame
  have hslot := h.slot
  have hbp := h.saved.1
  rw [hcreg _ (by decide)] at hlow hslot
  simp only [saves, List.length_singleton, htsp', hcreg .rbp (by decide)] at hlow hslot hbp
  refine ⟨u, steps_trans ht (steps_trans hcall hu), ⟨h.rip, ?_, ?_, ?_, fun x hx hx' => ?_,
    fun r hr => (h.kept r hr).trans (hcreg r hr)⟩⟩
  · rw [h.rsp, hcreg _ (by decide)]
  · rw [hslot]
    rfl
  · simp only [saves, List.length_cons, List.length_nil]
    refine ⟨hbp, ?_, ?_⟩
    · rw [loadWord_congr fun x hx hx' => hlow x (by omega) (by omega), hcmem,
        show s.sp - 8 * 7 + 8 = s.sp - 48 by omega, loadWord_storeWord]
    · rw [show s.sp - 8 * 7 + 8 + 8 = s.sp - 8 * (0 + 1 + 1 + 1 + 1 + 1) by omega]
      refine hin.congr fun x hx hx' => ?_
      simp only [List.length_map, List.length_reverse, List.length_cons, List.length_nil] at hx'
      rw [hlow x (by omega) (by omega), hcmem, storeWord_outside _ _ (by omega)]
  · simp only [saves, List.length_cons, List.length_nil] at hx
    rw [hlow x (by omega) hx', hcmem, storeWord_outside _ _ (by omega), hout x (by omega)]

theorem suspend_spec {kind : Kind} (hs : s.rip = p.addr kind.entry)
    (hsp : 8 * (saves p s.reg kind).length ≤ s.sp)
    (hd : s.sp ≤ (s.reg .rdi).toNat ∨
      (s.reg .rdi).toNat + 8 ≤ s.sp - 8 * (saves p s.reg kind).length) :
    ∃ n ≤ 9, ∃ t, steps p n s = some t ∧ Suspends p kind s t := by
  cases kind with
  | int => exact ⟨3, by omega, suspend_int hs hsp hd⟩
  | sys => exact ⟨9, le_rfl, suspend_sys hs hsp hd⟩

end suspend

section resume
variable {p : Placement code} {s : Machine}

theorem restore_spec {bp ret : BitVec 64} {vs : List (BitVec 64)} (hs : s.rip = p.addr 3)
    (hv : Holds s.mem s.sp (bp :: ret :: vs)) (ha : s.sp + 16 < 2 ^ 64) :
    ∃ t, steps p 2 s = some t ∧ t.rip = ret ∧ t.sp = s.sp + 16 ∧ t.mem = s.mem ∧
      t.reg .rbp = bp ∧ ∀ r, r ≠ .rbp → r ≠ .rsp → t.reg r = s.reg r := by
  obtain ⟨u, hu, hrip, hsp, hmem, -, hbp, hreg⟩ := steps_pops [.rbp] [bp] hs (by decide)
    (by decide) (by decide) ⟨hv.1, trivial⟩ rfl (by simp; omega)
  simp only [List.length_singleton] at hsp
  obtain ⟨t, ht, htrip, htsp, htmem, htreg⟩ := steps_ret hrip rfl (by omega)
  refine ⟨t, steps_trans (m := 1) (n := 1) hu ht, ?_, by omega, htmem.trans hmem, ?_,
    fun r hr hr' => ?_⟩
  · rw [htrip, Machine.top, hmem, hsp]
    exact hv.2.1
  · rw [htreg _ (by decide)]
    simpa using hbp
  · rw [htreg r hr', hreg r (by simpa using hr) hr']

def scratch : List Reg := [.rax, .rcx, .rdx, .rsi, .r8, .r9, .r10, .r11]

theorem clear_spec (hs : s.rip = p.addr 16) (ha : s.sp + 8 < 2 ^ 64) :
    ∃ t, steps p 9 s = some t ∧ t.rip = loadWord s.mem s.sp ∧ t.sp = s.sp + 8 ∧ t.mem = s.mem ∧
      ∀ r, r ∉ scratch → r ≠ .rsp → t.reg r = s.reg r := by
  obtain ⟨u, hu, hrip, hmem, hreg⟩ : ∃ u, steps p 8 s = some u ∧ u.rip = p.addr 24 ∧
      u.mem = s.mem ∧ ∀ r, r ∉ scratch → u.reg r = s.reg r := by
    refine ⟨_, (steps_at hs rfl).trans ((steps_at rfl rfl).trans ((steps_at rfl rfl).trans
      ((steps_at rfl rfl).trans ((steps_at rfl rfl).trans ((steps_at rfl rfl).trans
      ((steps_at rfl rfl).trans (steps_at rfl rfl))))))), rfl, rfl, fun r hr => ?_⟩
    simp only [scratch, List.mem_cons, List.not_mem_nil, or_false, not_or] at hr
    simp only [exec, jump_reg, assign_reg]
    simp [hr]
  have hsp : u.sp = s.sp := by rw [Machine.sp, hreg _ (by decide), Machine.sp]
  obtain ⟨t, ht, htrip, htsp, htmem, htreg⟩ := steps_ret hrip rfl (by omega)
  refine ⟨t, steps_trans (m := 8) (n := 1) hu ht, ?_, by omega, htmem.trans hmem,
    fun r hr hr' => ?_⟩
  · rw [htrip, Machine.top, hsp, hmem]
  · rw [htreg r hr', hreg r hr]

def frameRegs : List Reg :=
  [.rax, .rbx, .rcx, .rdx, .rsi, .rdi, .rbp, .r8, .r9, .r10, .r11, .r12, .r13, .r14, .r15]

theorem mem_frameRegs (r : Reg) (h : r ≠ .rsp) : r ∈ frameRegs := by
  revert h
  cases r <;> decide

-- xor rax, rax sets the flag that makes jz skip the error code
theorem leave_spec {w main cs flags sp ss : BitVec 64} (hs : s.rip = p.addr leaveEntry)
    (hv : Holds s.mem s.sp (List.replicate 15 0 ++ [w, main, cs, flags, sp, ss]))
    (ha : s.sp + 168 < 2 ^ 64) :
    ∃ t, steps p 19 s = some t ∧ t.rip = main ∧ t.cs = cs.setWidth 16 ∧ t.ss = ss.setWidth 16 ∧
      t.rflags = flags ∧ t.reg .rsp = sp ∧ t.mem = s.mem ∧ ∀ r, r ≠ .rsp → t.reg r = 0 := by
  obtain ⟨hzero, hframe⟩ := (holds_append _ _ _ _).mp hv
  have hxor : steps p 1 s = some (exec p leaveEntry s (.xor .rax .rax)) := steps_at hs rfl
  have hxsp : (exec p leaveEntry s (.xor .rax .rax)).sp = s.sp := by
    simp only [Machine.sp, exec, jump_reg, assign_reg]
    rw [Function.update_of_ne (by decide)]
  have hxzero : (exec p leaveEntry s (.xor .rax .rax)).rflags.getLsbD 6 = true := by
    rw [exec, BitVec.xor_self]
    exact assign_zero s .rax
  obtain ⟨t, ht, hrip, htsp, hmem, hsame, hregs, -⟩ := steps_pops frameRegs _
    (s := exec p leaveEntry s (.xor .rax .rax)) (i := 26) rfl (by decide) (by decide) (by decide)
    (hxsp ▸ hzero) rfl (by rw [hxsp, show frameRegs.length = 15 from rfl]; omega)
  rw [show frameRegs.length = 15 from rfl] at ht hrip
  rw [hxsp, show frameRegs.length = 15 from rfl] at htsp
  have hjz : exec p 41 t (.jz 43) = t.jump (p.addr 43) := by
    rw [exec, if_pos (by rw [hsame.rflags, hxzero])]
  have hjump : steps p 1 t = some (t.jump (p.addr 43)) := by
    rw [← hjz]
    exact steps_at hrip rfl
  have hasp : (exec p 43 (t.jump (p.addr 43)) (.add .rsp 8)).sp = s.sp + 128 := by
    rw [exec, jump_sp]
    exact (drop_sp (s := t) (by omega)).trans (by omega)
  have hadd : steps p 1 (t.jump (p.addr 43)) = some (exec p 43 (t.jump (p.addr 43)) (.add .rsp 8)) :=
    steps_at rfl rfl
  have hamem : (exec p 43 (t.jump (p.addr 43)) (.add .rsp 8)).mem = s.mem := hmem
  have hareg (r : Reg) (hr : r ≠ .rsp) : (exec p 43 (t.jump (p.addr 43)) (.add .rsp 8)).reg r = 0 := by
    have hr0 : t.reg r ∈ List.replicate 15 0 := hregs ▸ List.mem_map_of_mem (mem_frameRegs r hr)
    rw [exec, jump_reg, assign_reg, Function.update_of_ne hr]
    exact List.eq_of_mem_replicate hr0
  have harip : (exec p 43 (t.jump (p.addr 43)) (.add .rsp 8)).rip = p.addr 44 := rfl
  generalize exec p 43 (t.jump (p.addr 43)) (.add .rsp 8) = u at *
  obtain ⟨x, hx, hrip', hcs, hss, hflags, hsp, hxmem, hreg⟩ := steps_iretq harip rfl
    (by rw [hamem, hasp]; exact hframe.2)
  refine ⟨x, steps_trans (m := 1) (n := 18) hxor (steps_trans (m := 15) (n := 3) ht
    (steps_trans (m := 1) (n := 2) hjump (steps_trans (m := 1) (n := 1) hadd hx))), hrip', hcs, hss,
    hflags, hsp, hxmem.trans hamem, fun r hr => ?_⟩
  rw [hreg r hr, hareg r hr]

theorem resume_spec (th : Thread) (hs : s.rip = p.addr 3) (hv : Holds s.mem s.sp (frame p th))
    (hbase : s.sp + 8 * (frame p th).length = th.base) (ha : th.base < 2 ^ 64) :
    ∃ n ≤ 25, ∃ t, steps p n s = some t ∧ Resumed th t.toCpu ∧ t.rip = th.saved.target ∧
      t.mem = s.mem ∧ (th.saved.isFresh → Visits p leaveEntry s t) := by
  obtain ⟨stack, size, saved⟩ := th
  cases saved with
  | fresh main cs ss usermodeStack =>
    simp only [Thread.base, frame] at hv hbase ha
    simp at hbase
    obtain ⟨u, hu, hrip, hsp, hmem, -⟩ := restore_spec hs hv (by omega)
    have hrest := hv.2.2
    rw [show s.sp + 8 + 8 = u.sp by omega, ← hmem] at hrest
    obtain ⟨t, ht, hmain, hcs, hss, hflags, htsp, htmem, hreg⟩ := leave_spec hrip hrest (by omega)
    exact ⟨2 + 19, by omega, t, steps_trans hu ht, ⟨hmain, hcs, hss, hflags, htsp, hreg⟩, hmain,
      htmem.trans hmem, fun _ => .of_steps hu hrip ht⟩
  | suspended kind ret reg =>
    simp only [Thread.base] at hbase ha
    cases kind with
    | int =>
      simp only [frame, saves, List.singleton_append, List.length_cons, List.length_nil] at hv hbase
      obtain ⟨t, ht, hrip, hsp, hmem, hbp, -⟩ := restore_spec hs hv (by omega)
      refine ⟨2, by omega, t, ht, ⟨hrip, ?_, hbp, fun h => by cases h⟩, hrip, hmem, by simp [Saved.isFresh]⟩
      exact BitVec.eq_of_toNat_eq (by rw [← hbase]; exact hsp)
    | sys =>
      simp only [frame, saves, List.cons_append, List.nil_append, List.length_cons,
        List.length_nil] at hv hbase
      obtain ⟨u, hu, hrip, hsp, hmem, hbp, -⟩ := restore_spec hs hv (by omega)
      obtain ⟨x, hx, hxrip, hxsp, hxmem, -, hregs, hxout⟩ := steps_pops [.r15, .r14, .r13, .r12, .rbx]
        ([reg .r15, reg .r14, reg .r13, reg .r12, reg .rbx]) hrip (by decide) (by decide)
        (by decide) (by
          rw [hmem, hsp]
          exact ((holds_append _ _ [_, _, _, _, _] [ret]).mp hv.2.2).1) rfl (by simp; omega)
      simp only [List.length_cons, List.length_nil] at hxsp hx
      obtain ⟨t, ht, htrip, htsp, htmem, htreg⟩ := clear_spec hxrip (by omega)
      have hret : t.rip = ret := by
        rw [htrip, hxmem, hmem, hxsp, hsp]
        exact ((holds_append _ _ [_, _, _, _, _] [ret]).mp hv.2.2).2.1
      refine ⟨2 + (5 + 9), by omega, t, steps_trans hu (steps_trans hx ht), ⟨hret, ?_, ?_,
        fun _ r hr => ?_⟩, hret, htmem.trans (hxmem.trans hmem), by simp [Saved.isFresh]⟩
      · refine BitVec.eq_of_toNat_eq ?_
        rw [← hbase, ← Machine.sp, htsp]
        omega
      · rw [htreg _ (by decide) (by decide), hxout _ (by decide) (by decide), hbp]
      · simp only [List.map_cons, List.map_nil, List.cons.injEq, and_true] at hregs
        obtain ⟨h15, h14, h13, h12, hbx⟩ := hregs
        simp only [List.mem_cons, List.not_mem_nil, or_false] at hr
        rcases hr with rfl | rfl | rfl | rfl | rfl
        · exact (htreg _ (by decide) (by decide)).trans hbx
        · exact (htreg _ (by decide) (by decide)).trans h12
        · exact (htreg _ (by decide) (by decide)).trans h13
        · exact (htreg _ (by decide) (by decide)).trans h14
        · exact (htreg _ (by decide) (by decide)).trans h15

end resume

end Lasagne.Switch
