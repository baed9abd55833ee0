import Mathlib

-- fields packed one after the other, the first one lowest
namespace BitFields

-- a field is its width and its value, of which the low bits are kept
abbrev Field := Nat × Nat

def pack : List Field → Nat
  | [] => 0
  | (w, v) :: fs => v % 2 ^ w + 2 ^ w * pack fs

def width : List Field → Nat
  | [] => 0
  | (w, _) :: fs => w + width fs

def field (x k n : Nat) : Nat := x / 2 ^ k % 2 ^ n

variable {fs gs : List Field} {x k m n v w : Nat}

theorem field_zero (h : v < 2 ^ n) : field v 0 n = v := by
  rw [field, Nat.pow_zero, Nat.div_one, Nat.mod_eq_of_lt h]

theorem field_add : field x (m + k) n = field (x / 2 ^ m) k n := by
  rw [field, field, Nat.pow_add, Nat.div_div_eq_div_mul]

theorem pack_append_div : pack (fs ++ gs) / 2 ^ width fs = pack gs := by
  induction fs with
  | nil => rw [List.nil_append, width, Nat.pow_zero, Nat.div_one]
  | cons f fs ih =>
    have hv : f.2 % 2 ^ f.1 < 2 ^ f.1 := Nat.mod_lt _ (Nat.two_pow_pos _)
    rw [List.cons_append, pack, width, Nat.pow_add, ← Nat.div_div_eq_div_mul,
      Nat.add_mul_div_left _ _ (Nat.two_pow_pos _), Nat.div_eq_of_lt hv, Nat.zero_add, ih]

theorem field_pack (fs gs : List Field) (h : k + n ≤ w) :
    field (pack (fs ++ (w, v) :: gs)) (width fs + k) n = field v k n := by
  rw [field_add, pack_append_div]
  refine Nat.eq_of_testBit_eq fun i => ?_
  rw [pack, Nat.add_comm, field, field, Nat.testBit_mod_two_pow, Nat.testBit_mod_two_pow,
    Nat.testBit_div_two_pow, Nat.testBit_div_two_pow,
    Nat.testBit_two_pow_mul_add _ (Nat.mod_lt _ (Nat.two_pow_pos _)), Nat.testBit_mod_two_pow]
  by_cases hi : i < n
  · rw [if_pos (by omega), decide_eq_true (show i + k < w by omega), Bool.true_and]
  · rw [decide_eq_false hi, Bool.false_and, Bool.false_and]

end BitFields
