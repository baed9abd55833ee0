import Mathlib
import Lasagne.Library.X86

namespace X86String
open ByteMemory X86

-- a jump names its target by its index in the code
inductive Instr where
  | cld
  | std
  | mov (dst src : Reg)
  | movDword (dst src : Reg)
  | add (dst src : Reg)
  | sub (dst src : Reg)
  | dec (dst : Reg)
  | cmp (left right : Reg)
  | jb (target : Nat)
  | jae (target : Nat)
  | je (target : Nat)
  | repMovsb
  | repStosb
  | ret
  deriving DecidableEq, Repr

inductive Flag where
  | carry
  | zero
  | direction
  deriving DecidableEq, Repr

def Flag.bit : Flag → Nat
  | .carry => 0
  | .zero => 6
  | .direction => 10

def flag (s : Machine) (f : Flag) : Bool := s.rflags.getLsbD f.bit

def setFlag (s : Machine) (f : Flag) (b : Bool) : Machine :=
  { s with rflags := s.rflags &&& ~~~(1#64 <<< f.bit) ||| if b then 1#64 <<< f.bit else 0#64 }

-- of the arithmetic flags only carry and zero are kept
def compare (s : Machine) (x y : BitVec 64) : Machine :=
  setFlag (setFlag s .carry (decide (x < y))) .zero (decide (x = y))

def advance (s : Machine) (r : Reg) : Machine :=
  s.set r (if flag s .direction then s.reg r - 1 else s.reg r + 1)

def movsb (s : Machine) : Machine :=
  advance (advance { s with mem := storeByte s.mem (s.reg .rdi).toNat (s.mem (s.reg .rsi).toNat) }
    .rsi) .rdi

def stosb (s : Machine) : Machine :=
  advance { s with mem := storeByte s.mem (s.reg .rdi).toNat ((s.reg .rax).setWidth 8) } .rdi

def repeated (op : Machine → Machine) : Nat → Machine → Machine
  | 0, s => s
  | n + 1, s => repeated op n (op (s.set .rcx (s.reg .rcx - 1)))

-- none is the return to the caller
def exec (i : Nat) (s : Machine) : Instr → Machine × Option Nat
  | .cld => (setFlag s .direction false, some (i + 1))
  | .std => (setFlag s .direction true, some (i + 1))
  | .mov d r => (s.set d (s.reg r), some (i + 1))
  | .movDword d r => (s.set d ((s.reg r).setWidth 32 |>.setWidth 64), some (i + 1))
  | .add d r =>
    ((setFlag (setFlag s .carry (decide (2 ^ 64 ≤ (s.reg d).toNat + (s.reg r).toNat))) .zero
      (decide (s.reg d + s.reg r = 0))).set d (s.reg d + s.reg r), some (i + 1))
  | .sub d r => ((compare s (s.reg d) (s.reg r)).set d (s.reg d - s.reg r), some (i + 1))
  | .dec d => ((setFlag s .zero (decide (s.reg d = 1))).set d (s.reg d - 1), some (i + 1))
  | .cmp a b => (compare s (s.reg a) (s.reg b), some (i + 1))
  | .jb t => (s, some (if flag s .carry then t else i + 1))
  | .jae t => (s, some (if flag s .carry then i + 1 else t))
  | .je t => (s, some (if flag s .zero then t else i + 1))
  | .repMovsb => (repeated movsb (s.reg .rcx).toNat s, some (i + 1))
  | .repStosb => (repeated stosb (s.reg .rcx).toNat s, some (i + 1))
  | .ret => (s.drop.jump s.top, none)

def finish (code : List Instr) : Nat → Nat → Machine → Option Machine
  | 0, _, _ => none
  | n + 1, i, s => do
    let c ← code[i]?
    match exec i s c with
    | (s, none) => return s
    | (s, some i) => finish code n i s

section flags
variable {s : Machine} {f g : Flag} {b : Bool} {r : Reg} {v : BitVec 64}

theorem flag_setFlag : flag (setFlag s f b) g = if g = f then b else flag s g := by
  simp only [flag, setFlag]
  cases f <;> cases g <;> cases b <;> simp [Flag.bit]

@[simp] theorem flag_set : flag (s.set r v) f = flag s f := rfl

theorem compare_carry {x y : BitVec 64} : flag (compare s x y) .carry = decide (x < y) := by
  rw [compare, flag_setFlag, flag_setFlag]
  rfl

theorem compare_zero {x y : BitVec 64} : flag (compare s x y) .zero = decide (x = y) := by
  rw [compare, flag_setFlag]
  rfl

theorem compare_direction {x y : BitVec 64} :
    flag (compare s x y) .direction = flag s .direction := by
  rw [compare, flag_setFlag, flag_setFlag]
  rfl

theorem advance_reg :
    (advance s r).reg = Function.update s.reg r
      (if flag s .direction then s.reg r - 1 else s.reg r + 1) := rfl

end flags

section copy
variable {m : Memory} {d s n : Nat}

theorem copy_zero : copy m d s 0 = m := by
  funext x
  rw [copy, if_neg (by omega)]

theorem copy_inside {x : Nat} (h : d ≤ x ∧ x < d + n) : copy m d s n x = m (s + (x - d)) :=
  if_pos h

theorem copy_outside {x : Nat} (h : ¬ (d ≤ x ∧ x < d + n)) : copy m d s n x = m x := if_neg h

theorem copy_forward (h : d ≤ s ∨ s + n < d) :
    copy (storeByte m d (m s)) (d + 1) (s + 1) n = copy m d s (n + 1) := by
  funext x
  by_cases hx : d + 1 ≤ x ∧ x < d + 1 + n
  · rw [copy_inside hx, copy_inside (by omega), storeByte_other _ _ (by omega)]
    congr 1
    omega
  · rw [copy_outside hx]
    by_cases hd : x = d
    · subst hd
      rw [storeByte_same, copy_inside (by omega), Nat.sub_self, Nat.add_zero]
    · rw [storeByte_other _ _ hd, copy_outside (by omega)]

theorem copy_backward (h : s ≤ d) :
    copy (storeByte m (d + n) (m (s + n))) d s n = copy m d s (n + 1) := by
  funext x
  by_cases hx : d ≤ x ∧ x < d + n
  · rw [copy_inside hx, copy_inside (by omega), storeByte_other _ _ (by omega)]
  · rw [copy_outside hx]
    by_cases hd : x = d + n
    · subst hd
      rw [storeByte_same, copy_inside (by omega), Nat.add_sub_cancel_left]
    · rw [storeByte_other _ _ hd, copy_outside (by omega)]

end copy

section repeated
variable {s : Machine} {n d a : Nat}

theorem flag_repeated {op : Machine → Machine} {f : Flag}
    (hop : ∀ s, flag (op s) f = flag s f) (n : Nat) (s : Machine) :
    flag (repeated op n s) f = flag s f := by
  induction n generalizing s with
  | zero => rfl
  | succ n ih => rw [repeated, ih, hop, flag_set]

def Moved (s t : Machine) (m : Memory) : Prop :=
  t.mem = m ∧ t.rflags = s.rflags ∧ ∀ r, r ∉ [Reg.rcx, .rsi, .rdi] → t.reg r = s.reg r

theorem Moved.trans {t u : Machine} {m m' : Memory} (h : Moved s t m) (h' : Moved t u m') :
    Moved s u m' :=
  ⟨h'.1, h'.2.1.trans h.2.1, fun r hr => (h'.2.2 r hr).trans (h.2.2 r hr)⟩

theorem moved_movsb : Moved s (movsb (s.set .rcx (s.reg .rcx - 1)))
    (storeByte s.mem (s.reg .rdi).toNat (s.mem (s.reg .rsi).toNat)) := by
  refine ⟨rfl, rfl, fun r hr => ?_⟩
  simp only [List.mem_cons, List.not_mem_nil, or_false, not_or] at hr
  rw [movsb, advance_reg, Function.update_of_ne hr.2.2, advance_reg, Function.update_of_ne hr.2.1]
  exact Function.update_of_ne hr.1 _ _

theorem movsb_pointer {r : Reg} (hr : r = .rsi ∨ r = .rdi) :
    (movsb (s.set .rcx (s.reg .rcx - 1))).reg r =
      if flag s .direction then s.reg r - 1 else s.reg r + 1 := by
  rcases hr with rfl | rfl <;> rfl

-- a pointer past the last byte may wrap around, and is not used
theorem repeated_forward (n : Nat) {s : Machine} {d a : Nat}
    (hf : flag s .direction = false) (hd : n ≠ 0 → (s.reg .rdi).toNat = d)
    (ha : n ≠ 0 → (s.reg .rsi).toNat = a) (hd' : d + n ≤ 2 ^ 64) (ha' : a + n ≤ 2 ^ 64)
    (h : d ≤ a ∨ a + n ≤ d) : Moved s (repeated movsb n s) (copy s.mem d a n) := by
  induction n generalizing s d a with
  | zero => exact ⟨copy_zero.symm, rfl, fun _ _ => rfl⟩
  | succ n ih =>
    have hdi := hd (Nat.succ_ne_zero n)
    have hsi := ha (Nat.succ_ne_zero n)
    have hfirst := moved_movsb (s := s)
    rw [hdi, hsi] at hfirst
    have hnext := ih (s := movsb (s.set .rcx (s.reg .rcx - 1))) (d := d + 1) (a := a + 1) hf
      (fun hn => by rw [movsb_pointer (.inr rfl), hf, if_neg (by decide)]; bv_omega)
      (fun hn => by rw [movsb_pointer (.inl rfl), hf, if_neg (by decide)]; bv_omega)
      (by omega) (by omega) (by omega)
    rw [hfirst.1, copy_forward (by omega)] at hnext
    exact hfirst.trans hnext

theorem repeated_backward (n : Nat) {s : Machine} {d a : Nat}
    (hf : flag s .direction = true) (hd : n ≠ 0 → (s.reg .rdi).toNat + 1 = d + n)
    (ha : n ≠ 0 → (s.reg .rsi).toNat + 1 = a + n) (h : a ≤ d) :
    Moved s (repeated movsb n s) (copy s.mem d a n) := by
  induction n generalizing s with
  | zero => exact ⟨copy_zero.symm, rfl, fun _ _ => rfl⟩
  | succ n ih =>
    have hdi := hd (Nat.succ_ne_zero n)
    have hsi := ha (Nat.succ_ne_zero n)
    have hfirst := moved_movsb (s := s)
    rw [show (s.reg .rdi).toNat = d + n by omega, show (s.reg .rsi).toNat = a + n by omega] at hfirst
    have hnext := ih (s := movsb (s.set .rcx (s.reg .rcx - 1))) hf
      (fun hn => by rw [movsb_pointer (.inr rfl), hf, if_pos rfl]; bv_omega)
      (fun hn => by rw [movsb_pointer (.inl rfl), hf, if_pos rfl]; bv_omega)
    rw [hfirst.1, copy_backward h] at hnext
    exact hfirst.trans hnext

end repeated

section run
variable {code : List Instr} {n i j : Nat} {s t : Machine} {c : Instr}

theorem finish_next (hc : code[i]? = some c) (he : exec i s c = (t, some j)) :
    finish code (n + 1) i s = finish code n j t := by
  rw [finish, hc, Option.bind_eq_bind, Option.bind_some, he]

theorem finish_ret (hc : code[i]? = some .ret) :
    finish code (n + 1) i s = some (s.drop.jump s.top) := by
  rw [finish, hc]
  rfl

end run

end X86String
