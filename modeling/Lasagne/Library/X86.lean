import Mathlib
import Lasagne.Library.ByteMemory

namespace X86
open ByteMemory

inductive Reg where
  | rax | rbx | rcx | rdx | rsi | rdi | rbp | rsp | r8 | r9 | r10 | r11 | r12 | r13 | r14 | r15
  deriving DecidableEq, Repr

-- jz and call name their target by its index in the code
inductive Instr where
  | push (src : Reg)
  | pop (dst : Reg)
  | mov (dst src : Reg)
  | store (base src : Reg)
  | xor (dst src : Reg)
  | xorDword (dst src : Reg)
  | add (dst : Reg) (imm : BitVec 64)
  | jz (target : Nat)
  | call (target : Nat)
  | ret
  | iretq
  deriving DecidableEq, Repr

def canonical (address : BitVec 64) : Prop := (address.setWidth 48).signExtend 64 = address

instance (address : BitVec 64) : Decidable (canonical address) := by
  unfold canonical
  infer_instance

structure Cpu where
  reg : Reg → BitVec 64
  rip : BitVec 64
  rflags : BitVec 64
  cs : BitVec 16
  ss : BitVec 16

structure Machine extends Cpu where
  mem : Memory

namespace Machine

def sp (s : Machine) : Nat := (s.reg .rsp).toNat

def set (s : Machine) (r : Reg) (v : BitVec 64) : Machine :=
  { s with reg := Function.update s.reg r v }

def jump (s : Machine) (a : BitVec 64) : Machine := { s with rip := a }

def push (s : Machine) (v : BitVec 64) : Machine :=
  { s.set .rsp (s.reg .rsp - 8) with mem := storeWord s.mem (s.reg .rsp - 8).toNat v }

def top (s : Machine) : BitVec 64 := loadWord s.mem s.sp

def drop (s : Machine) : Machine := s.set .rsp (s.reg .rsp + 8)

def pop (s : Machine) (r : Reg) : Machine := s.drop.set r s.top

-- of the arithmetic flags only zero, bit 6, is kept
def setZero (s : Machine) (v : BitVec 64) : Machine :=
  { s with rflags := s.rflags &&& ~~~64#64 ||| if v = 0 then 64 else 0 }

def assign (s : Machine) (r : Reg) (v : BitVec 64) : Machine := (s.set r v).setZero v

end Machine

variable {code : List Instr}

structure Placement (code : List Instr) where
  addr : Nat → BitVec 64
  distinct : ∀ i < code.length, ∀ j < code.length, addr i = addr j → i = j

def exec (p : Placement code) (i : Nat) (s : Machine) : Instr → Machine
  | .push r => (s.push (s.reg r)).jump (p.addr (i + 1))
  | .pop r => (s.drop.set r s.top).jump (p.addr (i + 1))
  | .mov d r => (s.set d (s.reg r)).jump (p.addr (i + 1))
  | .store b r =>
    { s.jump (p.addr (i + 1)) with mem := storeWord s.mem (s.reg b).toNat (s.reg r) }
  | .xor d r => (s.assign d (s.reg d ^^^ s.reg r)).jump (p.addr (i + 1))
  | .xorDword d r =>
    (s.assign d ((s.reg d ^^^ s.reg r).setWidth 32 |>.setWidth 64)).jump (p.addr (i + 1))
  | .add d v => (s.assign d (s.reg d + v)).jump (p.addr (i + 1))
  | .jz t => s.jump (if s.rflags.getLsbD 6 then p.addr t else p.addr (i + 1))
  | .call t => (s.push (p.addr (i + 1))).jump (p.addr t)
  | .ret => s.drop.jump s.top
  | .iretq =>
    { (s.set .rsp (loadWord s.mem (s.sp + 24))).jump (loadWord s.mem s.sp) with
      cs := (loadWord s.mem (s.sp + 8)).setWidth 16
      rflags := loadWord s.mem (s.sp + 16)
      ss := (loadWord s.mem (s.sp + 32)).setWidth 16 }

def locate (p : Placement code) (a : BitVec 64) : Option Nat :=
  (List.range code.length).find? fun i => p.addr i = a

def step (p : Placement code) (s : Machine) : Option Machine := do
  let i ← locate p s.rip
  let c ← code[i]?
  return exec p i s c

def steps (p : Placement code) : Nat → Machine → Option Machine
  | 0, s => some s
  | n + 1, s => (step p s).bind (steps p n)

-- runs until control leaves the code
def finish (p : Placement code) : Nat → Machine → Option Machine
  | 0, _ => none
  | n + 1, s =>
    match step p s with
    | none => some s
    | some t => finish p n t

def outside (p : Placement code) (a : BitVec 64) : Prop := ∀ i < code.length, p.addr i ≠ a

instance (p : Placement code) (a : BitVec 64) : Decidable (outside p a) :=
  inferInstanceAs (Decidable (∀ i < code.length, p.addr i ≠ a))

def Visits (p : Placement code) (i : Nat) (s t : Machine) : Prop :=
  ∃ m n u, steps p m s = some u ∧ u.rip = p.addr i ∧ steps p n u = some t

section machine
variable {s : Machine} {r q : Reg} {v a : BitVec 64}

@[simp] theorem set_reg : (s.set r v).reg = Function.update s.reg r v := rfl
@[simp] theorem set_mem : (s.set r v).mem = s.mem := rfl
@[simp] theorem jump_reg : (s.jump a).reg = s.reg := rfl
@[simp] theorem jump_rip : (s.jump a).rip = a := rfl
@[simp] theorem jump_mem : (s.jump a).mem = s.mem := rfl
@[simp] theorem jump_sp : (s.jump a).sp = s.sp := rfl
@[simp] theorem assign_reg : (s.assign r v).reg = Function.update s.reg r v := rfl

theorem set_sp (h : r ≠ .rsp) : (s.set r v).sp = s.sp := by
  rw [Machine.sp, set_reg, Function.update_of_ne h.symm]
  rfl

theorem push_sp (h : 8 ≤ s.sp) : (s.push v).sp = s.sp - 8 := by
  simp only [Machine.sp, Machine.push, set_reg, Function.update_self] at h ⊢
  bv_omega

theorem push_mem (h : 8 ≤ s.sp) : (s.push v).mem = storeWord s.mem (s.sp - 8) v := by
  rw [← push_sp (v := v) h]
  simp only [Machine.push, Machine.sp, set_reg, Function.update_self]

theorem push_reg (h : r ≠ .rsp) : (s.push v).reg r = s.reg r := Function.update_of_ne h _ _

theorem drop_sp (h : s.sp + 8 < 2 ^ 64) : s.drop.sp = s.sp + 8 := by
  simp only [Machine.sp, Machine.drop, set_reg, Function.update_self] at h ⊢
  bv_omega

theorem drop_reg (h : r ≠ .rsp) : s.drop.reg r = s.reg r := Function.update_of_ne h _ _

theorem pushes_spec (vs : List (BitVec 64)) {s : Machine} (h : 8 * vs.length ≤ s.sp) :
    (vs.foldl Machine.push s).sp = s.sp - 8 * vs.length ∧
      Holds (vs.foldl Machine.push s).mem (s.sp - 8 * vs.length) vs.reverse ∧
      (∀ r, r ≠ .rsp → (vs.foldl Machine.push s).reg r = s.reg r) ∧
      ∀ x, x < s.sp - 8 * vs.length ∨ s.sp ≤ x → (vs.foldl Machine.push s).mem x = s.mem x := by
  induction vs generalizing s with
  | nil => exact ⟨rfl, trivial, fun _ _ => rfl, fun _ _ => rfl⟩
  | cons v vs ih =>
    rw [List.length_cons] at h ⊢
    have hsp : (s.push v).sp = s.sp - 8 := push_sp (by omega)
    have hmem : (s.push v).mem = storeWord s.mem (s.sp - 8) v := push_mem (by omega)
    obtain ⟨htop, hv, hreg, hout⟩ := ih (s := s.push v) (by omega)
    rw [hsp] at htop hv hout
    rw [List.foldl_cons, show s.sp - 8 * (vs.length + 1) = s.sp - 8 - 8 * vs.length by omega]
    refine ⟨htop, ?_, fun r hr => (hreg r hr).trans (push_reg hr), fun x hx => ?_⟩
    · rw [List.reverse_cons, holds_append, List.length_reverse,
        show s.sp - 8 - 8 * vs.length + 8 * vs.length = s.sp - 8 by omega]
      refine ⟨hv, ?_, trivial⟩
      rw [loadWord_congr fun x hx _ => hout x (.inr hx), hmem, loadWord_storeWord]
    · rw [hout x (by omega), hmem, storeWord_outside _ _ (by omega)]

theorem pushRegs_eq (rs : List Reg) (h : Reg.rsp ∉ rs) (s : Machine) :
    rs.foldl (fun s r => s.push (s.reg r)) s = (rs.map s.reg).foldl Machine.push s := by
  induction rs generalizing s with
  | nil => rfl
  | cons q qs ih =>
    rw [List.mem_cons, not_or] at h
    have hmap : qs.map (s.push (s.reg q)).reg = qs.map s.reg :=
      List.map_congr_left fun r hr => push_reg (ne_of_mem_of_not_mem hr h.2)
    rw [List.foldl_cons, ih h.2, hmap, List.map_cons, List.foldl_cons]

theorem assign_zero (s : Machine) (r : Reg) : (s.assign r 0).rflags.getLsbD 6 = true := by
  simp [Machine.assign, Machine.setZero]

end machine

section steps
variable {p : Placement code} {s t u : Machine} {c : Instr} {i m n fuel : Nat}

theorem locate_addr (hi : i < code.length) : locate p (p.addr i) = some i := by
  rw [locate, List.find?_range_eq_some]
  refine ⟨by simp, List.mem_range.mpr hi, fun j hj => ?_⟩
  have hne : p.addr j ≠ p.addr i := fun h => hj.ne (p.distinct j (hj.trans hi) i hi h)
  simpa using hne

theorem step_at (hs : s.rip = p.addr i) (hc : code[i]? = some c) :
    step p s = some (exec p i s c) := by
  have hi : i < code.length := (List.getElem?_eq_some_iff.mp hc).1
  simp [step, hs, locate_addr hi, hc]

theorem step_outside (h : outside p s.rip) : step p s = none := by
  have hnone : locate p s.rip = none := by
    rw [locate, List.find?_eq_none]
    intro i hi
    simpa using h i (List.mem_range.mp hi)
  simp [step, hnone]

theorem steps_at (hs : s.rip = p.addr i) (hc : code[i]? = some c) :
    steps p (n + 1) s = steps p n (exec p i s c) := by
  rw [steps, step_at hs hc, Option.bind_some]

theorem steps_add : steps p (m + n) s = (steps p m s).bind (steps p n) := by
  induction m generalizing s with
  | zero => simp [steps]
  | succ m ih =>
    rw [Nat.add_right_comm, steps, steps, Option.bind_assoc]
    congr 1
    funext t
    exact ih

theorem steps_trans (h : steps p m s = some t) (h' : steps p n t = some u) :
    steps p (m + n) s = some u := by
  rw [steps_add, h]
  exact h'

theorem steps_ret (hs : s.rip = p.addr i) (hc : code[i]? = some .ret) (ha : s.sp + 8 < 2 ^ 64) :
    ∃ t, steps p 1 s = some t ∧ t.rip = s.top ∧ t.sp = s.sp + 8 ∧ t.mem = s.mem ∧
      ∀ r, r ≠ .rsp → t.reg r = s.reg r :=
  ⟨_, steps_at hs hc, rfl, drop_sp ha, rfl, fun _ hr => drop_reg hr⟩

theorem steps_iretq {rip cs rflags sp ss : BitVec 64} (hs : s.rip = p.addr i)
    (hc : code[i]? = some .iretq) (hv : Holds s.mem s.sp [rip, cs, rflags, sp, ss]) :
    ∃ t, steps p 1 s = some t ∧ t.rip = rip ∧ t.cs = cs.setWidth 16 ∧ t.ss = ss.setWidth 16 ∧
      t.rflags = rflags ∧ t.reg .rsp = sp ∧ t.mem = s.mem ∧ ∀ r, r ≠ .rsp → t.reg r = s.reg r := by
  obtain ⟨hrip, hcs, hflags, hsp, hss, -⟩ := hv
  refine ⟨exec p i s .iretq, steps_at hs hc, hrip, ?_, ?_, hflags, ?_, rfl, fun r hr => ?_⟩
  · exact congrArg (BitVec.setWidth 16) hcs
  · exact congrArg (BitVec.setWidth 16) hss
  · simp only [exec, jump_reg, set_reg, Function.update_self]
    exact hsp
  · simp only [exec, jump_reg, set_reg, Function.update_of_ne hr]

theorem Visits.of_steps (hm : steps p m s = some t) (ht : t.rip = p.addr i)
    (hn : steps p n t = some u) : Visits p i s u :=
  ⟨m, n, t, hm, ht, hn⟩

theorem Visits.after (h : steps p m s = some t) (hv : Visits p i t u) : Visits p i s u := by
  obtain ⟨k, n, x, hk, hx, hn⟩ := hv
  exact ⟨m + k, n, x, steps_trans h hk, hx, hn⟩

theorem finish_steps (h : steps p n s = some t) (ht : outside p t.rip) (hn : n < fuel) :
    finish p fuel s = some t := by
  induction n generalizing s fuel with
  | zero =>
    obtain ⟨fuel, rfl⟩ : ∃ k, fuel = k + 1 := ⟨fuel - 1, by omega⟩
    obtain rfl : s = t := Option.some.inj h
    rw [finish, step_outside ht]
  | succ n ih =>
    obtain ⟨fuel, rfl⟩ : ∃ k, fuel = k + 1 := ⟨fuel - 1, by omega⟩
    obtain ⟨r, hr, hrest⟩ := Option.bind_eq_some_iff.mp h
    rw [finish, hr]
    exact ih hrest (by omega)

end steps

section blocks
variable {p : Placement code} {s : Machine}

structure Same (s t : Machine) : Prop where
  rflags : t.rflags = s.rflags
  cs : t.cs = s.cs
  ss : t.ss = s.ss

theorem code_cons {c : Instr} {cs : List Instr} {i : Nat} (h : c :: cs <+: code.drop i) :
    code[i]? = some c ∧ cs <+: code.drop (i + 1) := by
  obtain ⟨ds, hds⟩ := h
  rw [← List.head?_drop, ← List.tail_drop, ← hds]
  exact ⟨rfl, ds, rfl⟩

theorem steps_pops (rs : List Reg) (vs : List (BitVec 64)) {s : Machine} {i : Nat}
    (hs : s.rip = p.addr i) (hc : rs.map Instr.pop <+: code.drop i) (hsp : Reg.rsp ∉ rs)
    (hd : rs.Nodup) (hv : Holds s.mem s.sp vs) (hlen : vs.length = rs.length)
    (ha : s.sp + 8 * rs.length < 2 ^ 64) :
    ∃ t, steps p rs.length s = some t ∧ t.rip = p.addr (i + rs.length) ∧
      t.sp = s.sp + 8 * rs.length ∧ t.mem = s.mem ∧ Same s t ∧ rs.map t.reg = vs ∧
      ∀ r, r ∉ rs → r ≠ .rsp → t.reg r = s.reg r := by
  induction rs generalizing s i vs with
  | nil =>
    obtain rfl : vs = [] := List.length_eq_zero_iff.mp hlen
    exact ⟨s, rfl, hs, rfl, rfl, ⟨rfl, rfl, rfl⟩, rfl, fun _ _ _ => rfl⟩
  | cons q qs ih =>
    obtain ⟨hq, hqs⟩ := code_cons hc
    obtain ⟨v, vs, rfl⟩ := List.exists_cons_of_length_eq_add_one hlen
    rw [List.mem_cons, not_or] at hsp
    rw [List.nodup_cons] at hd
    rw [List.length_cons] at ha
    have hsp' : (exec p i s (.pop q)).sp = s.sp + 8 := by
      rw [exec, jump_sp, set_sp (Ne.symm hsp.1), drop_sp (by omega)]
    obtain ⟨t, ht, hrip, htsp, hmem, hsame, hin, hout⟩ := ih vs (s := exec p i s (.pop q)) rfl hqs hsp.2
      hd.2 (hsp' ▸ hv.2) (by simpa using hlen) (by omega)
    refine ⟨t, (steps_at hs hq).trans ht, ?_, ?_, hmem, ⟨hsame.rflags, hsame.cs, hsame.ss⟩, ?_,
      fun r hr hne => ?_⟩
    · rw [hrip, List.length_cons, Nat.add_assoc, Nat.add_comm 1]
    · rw [htsp, hsp', List.length_cons]
      omega
    · rw [List.map_cons, hin, hout q hd.1 (Ne.symm hsp.1), exec, jump_reg, set_reg,
        Function.update_self]
      exact congrArg (· :: vs) hv.1
    · rw [List.mem_cons, not_or] at hr
      rw [hout r hr.2 hne, exec, jump_reg, set_reg, Function.update_of_ne hr.1, drop_reg hne]

theorem steps_pushes (rs : List Reg) {s : Machine} {i : Nat} (hs : s.rip = p.addr i)
    (hc : rs.map Instr.push <+: code.drop i) (hsp : Reg.rsp ∉ rs) (ha : 8 * rs.length ≤ s.sp) :
    ∃ t, steps p rs.length s = some t ∧ t.rip = p.addr (i + rs.length) ∧
      t.sp = s.sp - 8 * rs.length ∧ Same s t ∧ (∀ r, r ≠ .rsp → t.reg r = s.reg r) ∧
      Holds t.mem (s.sp - 8 * rs.length) (rs.reverse.map s.reg) ∧
      ∀ x, x < s.sp - 8 * rs.length ∨ s.sp ≤ x → t.mem x = s.mem x := by
  induction rs generalizing s i with
  | nil => exact ⟨s, rfl, hs, rfl, ⟨rfl, rfl, rfl⟩, fun _ _ => rfl, trivial, fun _ _ => rfl⟩
  | cons q qs ih =>
    obtain ⟨hq, hqs⟩ := code_cons hc
    rw [List.mem_cons, not_or] at hsp
    rw [List.length_cons] at ha
    have hsp' : (exec p i s (.push q)).sp = s.sp - 8 := by
      rw [exec, jump_sp, push_sp (by omega)]
    have hmem' : (exec p i s (.push q)).mem = storeWord s.mem (s.sp - 8) (s.reg q) := by
      rw [exec, jump_mem, push_mem (by omega)]
    have hreg' (r : Reg) (hr : r ≠ .rsp) : (exec p i s (.push q)).reg r = s.reg r := by
      rw [exec, jump_reg, push_reg hr]
    obtain ⟨t, ht, hrip, htsp, hsame, hreg, hin, hout⟩ := ih (s := exec p i s (.push q)) rfl hqs
      hsp.2 (by omega)
    rw [hsp'] at htsp hin hout
    rw [List.length_cons, show s.sp - 8 * (qs.length + 1) = s.sp - 8 - 8 * qs.length by omega]
    refine ⟨t, (steps_at hs hq).trans ht, ?_, htsp, ⟨hsame.rflags, hsame.cs, hsame.ss⟩,
      fun r hr => (hreg r hr).trans (hreg' r hr), ?_, fun x hx => ?_⟩
    · rw [hrip, Nat.add_assoc, Nat.add_comm 1]
    · rw [List.reverse_cons, List.map_append, holds_append]
      refine ⟨?_, ?_, trivial⟩
      · rw [List.map_congr_left fun r hr => (hreg' r ?_).symm]
        · exact hin
        · rintro rfl
          exact hsp.2 (List.mem_reverse.mp hr)
      · rw [List.length_map, List.length_reverse,
          show s.sp - 8 - 8 * qs.length + 8 * qs.length = s.sp - 8 by omega,
          loadWord_congr fun x hx _ => hout x (.inr hx), hmem', loadWord_storeWord]
    · rw [hout x (by omega), hmem', storeWord_outside _ _ (by omega)]

end blocks

end X86
