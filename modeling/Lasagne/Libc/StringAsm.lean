import Mathlib
import Lasagne.Library.X86String

namespace Lasagne.Libc
open ByteMemory X86String
open X86 (Machine Reg)

def memset : List Instr :=
  [.cld, .mov .rcx .rdx, .mov .rdx .rdi, .movDword .rax .rsi, .repStosb, .mov .rax .rdx, .ret]

def memcpy : List Instr := [.cld, .mov .rcx .rdx, .mov .rax .rdi, .repMovsb, .ret]

-- .backward is 20, .return is 27
def memmove : List Instr :=
  [.mov .rax .rdi, .sub .rax .rsi, .jb 7, .mov .r8 .rdi, .je 27, .cmp .rax .rdx, .jae 7, .jb 20,
    .std, .mov .rcx .rdx, .add .rdi .rcx, .dec .rdi, .add .rsi .rcx, .dec .rsi, .repMovsb,
    .mov .rax .r8, .ret]

def code : List Instr := memset ++ memcpy ++ memmove

inductive Routine where
  | memset
  | memcpy
  | memmove
  deriving DecidableEq, Repr

def Routine.entry : Routine → Nat
  | .memset => 0
  | .memcpy => 7
  | .memmove => 12

def fuel : Nat := 32

def call (r : Routine) (s : Machine) : Option Machine := finish code fuel r.entry s

section memcpy
variable {s : Machine}

theorem memcpy_spec (k : Nat) (hd : (s.reg .rdi).toNat + (s.reg .rdx).toNat ≤ 2 ^ 64)
    (ha : (s.reg .rsi).toNat + (s.reg .rdx).toNat ≤ 2 ^ 64)
    (h : (s.reg .rdi).toNat ≤ (s.reg .rsi).toNat ∨
      (s.reg .rsi).toNat + (s.reg .rdx).toNat ≤ (s.reg .rdi).toNat) :
    ∃ t, finish code (k + 5) 7 s = some t ∧ t.reg .rax = s.reg .rdi ∧
      t.mem = copy s.mem (s.reg .rdi).toNat (s.reg .rsi).toNat (s.reg .rdx).toNat := by
  rw [finish_next rfl rfl, finish_next rfl rfl, finish_next rfl rfl, finish_next rfl rfl,
    finish_ret rfl]
  have hclear : flag (setFlag s .direction false) .direction = false := by
    rw [flag_setFlag]
    rfl
  obtain ⟨hmem, -, hreg⟩ := repeated_forward (s.reg .rdx).toNat
    (s := ((setFlag s .direction false).set .rcx (s.reg .rdx)).set .rax (s.reg .rdi))
    hclear (fun _ => rfl) (fun _ => rfl) hd ha h
  exact ⟨_, rfl, hreg .rax (by decide), hmem⟩

end memcpy

section memmove
variable {s : Machine}

theorem copy_self {m : Memory} {d n : Nat} : copy m d d n = m := by
  funext x
  by_cases hx : d ≤ x ∧ x < d + n
  · rw [copy_inside hx, Nat.add_sub_cancel' hx.1]
  · rw [copy_outside hx]

theorem return_spec (k : Nat) : ∃ t, finish code (k + 2) 27 s = some t ∧ t.reg .rax = s.reg .r8 ∧
    t.mem = s.mem := by
  rw [finish_next rfl rfl, finish_ret rfl]
  exact ⟨_, rfl, rfl, rfl⟩

theorem backward_spec (k : Nat) (hn : s.reg .rdx ≠ 0)
    (hd : (s.reg .rdi).toNat + (s.reg .rdx).toNat ≤ 2 ^ 64)
    (ha : (s.reg .rsi).toNat + (s.reg .rdx).toNat ≤ 2 ^ 64)
    (h : (s.reg .rsi).toNat ≤ (s.reg .rdi).toNat) :
    ∃ t, finish code (k + 9) 20 s = some t ∧ t.reg .rax = s.reg .r8 ∧
      t.mem = copy s.mem (s.reg .rdi).toNat (s.reg .rsi).toNat (s.reg .rdx).toNat := by
  rw [finish_next rfl rfl, finish_next rfl rfl, finish_next rfl rfl, finish_next rfl rfl,
    finish_next rfl rfl, finish_next rfl rfl, finish_next rfl rfl]
  generalize hu : Machine.set _ Reg.rsi _ = u
  have hset : flag u .direction = true := by
    rw [← hu]
    simp [flag_setFlag]
  have hdi : u.reg .rdi = s.reg .rdi + s.reg .rdx - 1 := by
    rw [← hu]
    rfl
  have hsi : u.reg .rsi = s.reg .rsi + s.reg .rdx - 1 := by
    rw [← hu]
    rfl
  have hcx : u.reg .rcx = s.reg .rdx := by
    rw [← hu]
    rfl
  have hr8 : u.reg .r8 = s.reg .r8 := by
    rw [← hu]
    rfl
  have hmem : u.mem = s.mem := by
    rw [← hu]
    rfl
  obtain ⟨hmoved, -, hreg⟩ := repeated_backward (s.reg .rdx).toNat hset
    (d := (s.reg .rdi).toNat) (a := (s.reg .rsi).toNat)
    (fun _ => by rw [hdi]; bv_omega) (fun _ => by rw [hsi]; bv_omega) h
  obtain ⟨t, ht, hax, htm⟩ := return_spec (s := repeated movsb (u.reg .rcx).toNat u) k
  rw [hcx] at ht hax htm
  refine ⟨t, by rw [hcx]; exact ht, ?_, ?_⟩
  · rw [hax, hreg .r8 (by decide), hr8]
  · rw [htm, hmoved, hmem]

structure Prepared (s t : Machine) : Prop where
  reg : ∀ r, r ∉ [Reg.rax, .r8] → t.reg r = s.reg r
  mem : t.mem = s.mem
  direction : flag t .direction = flag s .direction

theorem Prepared.trans {u t : Machine} (h : Prepared s t) (h' : Prepared t u) : Prepared s u where
  reg r hr := (h'.reg r hr).trans (h.reg r hr)
  mem := h'.mem.trans h.mem
  direction := h'.direction.trans h.direction

theorem prepared_set {r : Reg} {v : BitVec 64} (hr : r ∈ [Reg.rax, .r8]) : Prepared s (s.set r v) where
  reg _ hr' := Function.update_of_ne (ne_of_mem_of_not_mem hr hr').symm _ _
  mem := rfl
  direction := flag_set

theorem prepared_compare {x y : BitVec 64} : Prepared s (compare s x y) where
  reg _ _ := rfl
  mem := rfl
  direction := compare_direction

-- the difference of the pointers is below the length exactly when the areas overlap
def Backward (s : Machine) : Prop :=
  s.reg .rsi < s.reg .rdi ∧ s.reg .rdi - s.reg .rsi < s.reg .rdx

instance (s : Machine) : Decidable (Backward s) := inferInstanceAs (Decidable (_ ∧ _))

theorem memmove_below (h : s.reg .rdi < s.reg .rsi) :
    ∃ t, Prepared s t ∧ call .memmove s = finish code 29 7 t := by
  rw [call, fuel, Routine.entry, finish_next rfl rfl, finish_next rfl rfl]
  generalize hu : Machine.set (compare _ _ _) Reg.rax _ = u
  have hcarry : flag u .carry = decide (s.reg .rdi < s.reg .rsi) := by
    rw [← hu]
    exact compare_carry
  refine ⟨u, ?_, by rw [finish_next rfl rfl, hcarry, if_pos (decide_eq_true h)]⟩
  rw [← hu]
  exact ((prepared_set (by simp)).trans prepared_compare).trans (prepared_set (by simp))

theorem memmove_above (h : ¬ s.reg .rdi < s.reg .rsi) :
    ∃ t, Prepared s t ∧ t.reg .rax = s.reg .rdi - s.reg .rsi ∧ t.reg .r8 = s.reg .rdi ∧
      flag t .zero = decide (s.reg .rdi = s.reg .rsi) ∧ call .memmove s = finish code 28 16 t := by
  rw [call, fuel, Routine.entry, finish_next rfl rfl, finish_next rfl rfl]
  generalize hu : Machine.set (compare _ _ _) Reg.rax _ = u
  have hprep : Prepared s u := by
    rw [← hu]
    exact ((prepared_set (by simp)).trans prepared_compare).trans (prepared_set (by simp))
  have hax : u.reg .rax = s.reg .rdi - s.reg .rsi := by
    rw [← hu]
    rfl
  have hcarry : flag u .carry = decide (s.reg .rdi < s.reg .rsi) := by
    rw [← hu]
    exact compare_carry
  have hzero : flag u .zero = decide (s.reg .rdi = s.reg .rsi) := by
    rw [← hu]
    exact compare_zero
  rw [finish_next rfl rfl, hcarry, if_neg (by simpa using h), finish_next rfl rfl]
  exact ⟨u.set .r8 (u.reg .rdi), hprep.trans (prepared_set (by simp)), hax,
    hprep.reg .rdi (by decide), hzero, rfl⟩

theorem memmove_ways (s : Machine) : ∃ t, Prepared s t ∧
    (¬ Backward s ∧ s.reg .rdi ≠ s.reg .rsi ∧ (∃ k, call .memmove s = finish code (k + 5) 7 t) ∨
      s.reg .rdi = s.reg .rsi ∧ t.reg .r8 = s.reg .rdi ∧
        (∃ k, call .memmove s = finish code (k + 2) 27 t) ∨
      Backward s ∧ t.reg .r8 = s.reg .rdi ∧ ∃ k, call .memmove s = finish code (k + 9) 20 t) := by
  by_cases hlt : s.reg .rdi < s.reg .rsi
  · obtain ⟨t, hp, hcall⟩ := memmove_below hlt
    exact ⟨t, hp, .inl ⟨fun hb => absurd hlt (BitVec.not_lt.mpr (BitVec.le_of_lt hb.1)),
      BitVec.ne_of_lt hlt, 24, hcall⟩⟩
  obtain ⟨t, hp, hax, hr8, hzero, hcall⟩ := memmove_above hlt
  rw [finish_next rfl rfl, hzero] at hcall
  by_cases heq : s.reg .rdi = s.reg .rsi
  · rw [if_pos (decide_eq_true heq)] at hcall
    exact ⟨t, hp, .inr (.inl ⟨heq, hr8, 25, hcall⟩)⟩
  rw [if_neg (by simpa using heq), finish_next rfl rfl] at hcall
  have hgt : s.reg .rsi < s.reg .rdi :=
    Nat.lt_of_le_of_ne (Nat.le_of_not_lt hlt) fun h => heq (BitVec.eq_of_toNat_eq h).symm
  have hcarry : flag (compare t (t.reg .rax) (t.reg .rdx)) .carry =
      decide (s.reg .rdi - s.reg .rsi < s.reg .rdx) := by
    rw [compare_carry, hax, hp.reg .rdx (by decide)]
  refine ⟨compare t (t.reg .rax) (t.reg .rdx), hp.trans prepared_compare, ?_⟩
  rw [finish_next rfl rfl, hcarry] at hcall
  by_cases hover : s.reg .rdi - s.reg .rsi < s.reg .rdx
  · rw [if_pos (decide_eq_true hover), finish_next rfl rfl, hcarry,
      if_pos (decide_eq_true hover)] at hcall
    exact .inr (.inr ⟨⟨hgt, hover⟩, hr8, 15, hcall⟩)
  · rw [if_neg (by simpa using hover)] at hcall
    exact .inl ⟨fun hb => hover hb.2, heq, 20, hcall⟩

theorem memmove_spec (hd : (s.reg .rdi).toNat + (s.reg .rdx).toNat ≤ 2 ^ 64)
    (ha : (s.reg .rsi).toNat + (s.reg .rdx).toNat ≤ 2 ^ 64) :
    ∃ t, call .memmove s = some t ∧ t.reg .rax = s.reg .rdi ∧
      t.mem = copy s.mem (s.reg .rdi).toNat (s.reg .rsi).toNat (s.reg .rdx).toNat := by
  obtain ⟨w, hp, hways⟩ := memmove_ways s
  have hdi := hp.reg .rdi (by decide)
  have hsi := hp.reg .rsi (by decide)
  have hdx := hp.reg .rdx (by decide)
  obtain ⟨hforward, hne, k, hcall⟩ | ⟨heq, hr8, k, hcall⟩ | ⟨hback, hr8, k, hcall⟩ := hways
  · rw [hcall, ← hdi, ← hsi, ← hdx, ← hp.mem]
    refine memcpy_spec k (by rwa [hdi, hdx]) (by rwa [hsi, hdx]) ?_
    rw [hdi, hsi, hdx]
    rw [Backward, not_and, BitVec.not_lt] at hforward
    rcases Nat.lt_or_ge (s.reg .rsi).toNat (s.reg .rdi).toNat with hlt | hge
    · have hdiff : (s.reg .rdi - s.reg .rsi).toNat = (s.reg .rdi).toNat - (s.reg .rsi).toNat :=
        BitVec.toNat_sub_of_le hlt.le
      have hapart : (s.reg .rdx).toNat ≤ (s.reg .rdi - s.reg .rsi).toNat := hforward hlt
      exact .inr (by omega)
    · exact .inl hge
  · obtain ⟨t, ht, htax, htm⟩ := return_spec (s := w) k
    refine ⟨t, hcall.trans ht, htax.trans hr8, ?_⟩
    rw [htm, hp.mem, heq, copy_self]
  · have hn : w.reg .rdx ≠ 0 := by
      rw [hdx]
      intro h
      rw [Backward, h] at hback
      exact absurd hback.2 (by simp)
    obtain ⟨t, ht, htax, htm⟩ := backward_spec k hn (by rwa [hdi, hdx]) (by rwa [hsi, hdx])
      (by rw [hdi, hsi]; exact Nat.le_of_lt hback.1)
    refine ⟨t, hcall.trans ht, htax.trans hr8, ?_⟩
    rw [htm, hdi, hsi, hdx, hp.mem]

theorem memmove_moves (hd : (s.reg .rdi).toNat + (s.reg .rdx).toNat ≤ 2 ^ 64)
    (ha : (s.reg .rsi).toNat + (s.reg .rdx).toNat ≤ 2 ^ 64) :
    ∃ t, call .memmove s = some t ∧ t.reg .rax = s.reg .rdi ∧
      (∀ i < (s.reg .rdx).toNat, t.mem ((s.reg .rdi).toNat + i) = s.mem ((s.reg .rsi).toNat + i)) ∧
      ∀ x, x < (s.reg .rdi).toNat ∨ (s.reg .rdi).toNat + (s.reg .rdx).toNat ≤ x →
        t.mem x = s.mem x := by
  obtain ⟨t, ht, hax, hmem⟩ := memmove_spec hd ha
  refine ⟨t, ht, hax, fun i hi => ?_, fun x hx => ?_⟩
  · rw [hmem, copy_inside (by omega), Nat.add_sub_cancel_left]
  · rw [hmem, copy_outside (by omega)]

def overlapping : Machine where
  reg r := match r with
    | .rdi => 0x1002
    | .rsi => 0x1000
    | .rdx => 4
    | _ => 0x8000
  rip := 0x2000
  rflags := 1 <<< 10
  cs := 8
  ss := 16
  mem x := BitVec.ofNat 8 x

theorem memmove_moves_sample : ∃ t, call .memmove overlapping = some t ∧ t.reg .rax = 0x1002 ∧
    t.mem 0x1004 = 2 ∧ t.mem 0x1006 = 6 := by
  obtain ⟨t, ht, hax, hin, hout⟩ := memmove_moves (s := overlapping) (by decide) (by decide)
  exact ⟨t, ht, hax, hin 2 (by decide), hout 0x1006 (.inr (by decide))⟩

end memmove

end Lasagne.Libc
