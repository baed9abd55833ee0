import Mathlib

namespace CInt

def wordSize : Nat := 2 ^ 64

def checked (x : Int) : Option Int :=
  if -2147483648 ≤ x ∧ x < 2147483648 then some x else none

def toInt (n : Nat) : Int :=
  if n % 4294967296 < 2147483648 then (n % 4294967296 : Nat)
  else (n % 4294967296 : Nat) - 4294967296

def toSize (x : Int) : Nat := (x % 18446744073709551616).toNat

-- 1 << n on a 32-bit int; a count outside 0..31 is undefined, 1 << 31 is INT_MIN
def shiftOne (n : Int) : Option Int :=
  if 0 ≤ n ∧ n < 31 then some (2 ^ n.toNat)
  else if n = 31 then some (-2147483648)
  else none

def shiftRight (x : Nat) (n : Int) : Option Nat :=
  if 0 ≤ n ∧ n < 64 then some (x / 2 ^ n.toNat) else none

def countTrailingZeros (n : Nat) : Option Nat := (List.range 64).find? n.testBit

def countLeadingZeros (n : Nat) : Option Nat :=
  if n = 0 then none else some (63 - n.log2)

-- the % of two ints, undefined for a zero divisor
def remainder (a b : Int) : Option Int := if b = 0 then none else some (a.tmod b)

-- an index outside an array of n elements is undefined
def index (i : Int) (n : Nat) : Option Nat := if 0 ≤ i ∧ i < n then some i.toNat else none

theorem remainder_ofNat (a : Nat) {b : Nat} (h : 0 < b) :
    remainder (a : Int) (b : Int) = some ((a % b : Nat) : Int) := by
  rw [remainder, if_neg (by omega), Int.tmod_eq_emod_of_nonneg (by omega)]
  rfl

theorem index_ofNat {i n : Nat} (h : i < n) : index (i : Int) n = some i := by
  rw [index, if_pos (by omega), Int.toNat_natCast]

theorem checked_of_range {x : Int} (h : -2147483648 ≤ x ∧ x < 2147483648) :
    checked x = some x := if_pos h

theorem toInt_of_lt {n : Nat} (h : n < 2147483648) : toInt n = n := by
  rw [toInt, Nat.mod_eq_of_lt (by omega), if_pos h]

theorem toSize_ofNat {n : Nat} (h : n < 18446744073709551616) : toSize (n : Int) = n := by
  rw [toSize]; omega

theorem shiftOne_of_lt {n : Nat} (h : n < 31) : shiftOne (n : Int) = some ((2 ^ n : Nat) : Int) := by
  rw [shiftOne, if_pos (by omega)]
  simp

theorem shiftRight_of_lt (x : Nat) {n : Nat} (h : n < 64) :
    shiftRight x (n : Int) = some (x / 2 ^ n) := by
  rw [shiftRight, if_pos (by omega)]
  simp

theorem countTrailingZeros_two_pow {k : Nat} (h : k < 64) :
    countTrailingZeros (2 ^ k) = some k := by
  rw [countTrailingZeros, List.find?_range_eq_some]
  refine ⟨Nat.testBit_two_pow_self, List.mem_range.mpr h, ?_⟩
  intro j hj
  rw [Nat.testBit_two_pow_of_ne (by omega)]
  rfl

theorem countTrailingZeros_odd_mul {u k : Nat} (hu : u % 2 = 1) (h : k < 64) :
    countTrailingZeros (u * 2 ^ k) = some k := by
  rw [countTrailingZeros, List.find?_range_eq_some]
  refine ⟨?_, List.mem_range.mpr h, fun j hj => ?_⟩
  · rw [Nat.testBit_mul_two_pow, Nat.sub_self, Nat.testBit_zero, hu]
    simp
  · rw [Nat.testBit_mul_two_pow, decide_eq_false (by omega)]
    rfl

theorem countTrailingZeros_le_log {n a : Nat} (h : countTrailingZeros n = some a) :
    n.testBit a = true ∧ ∀ j < a, n.testBit j = false := by
  rw [countTrailingZeros, List.find?_range_eq_some] at h
  exact ⟨h.1, fun j hj => by simpa using h.2.2 j hj⟩

theorem countTrailingZeros_isSome {n : Nat} (hn : n ≠ 0) (h : n < 2 ^ 64) :
    ∃ a, countTrailingZeros n = some a := by
  have hlog : n.log2 < 64 := (Nat.log2_lt hn).mpr h
  have hs : (countTrailingZeros n).isSome := by
    rw [countTrailingZeros, List.find?_isSome]
    exact ⟨n.log2, List.mem_range.mpr hlog, Nat.testBit_log2 hn⟩
  exact Option.isSome_iff_exists.mp hs

theorem countTrailingZeros_eq_log2_iff {n a : Nat} (hn : n ≠ 0)
    (h : countTrailingZeros n = some a) : a = n.log2 ↔ n = 2 ^ n.log2 := by
  obtain ⟨hset, hlow⟩ := countTrailingZeros_le_log h
  constructor
  · intro ha
    apply Nat.eq_of_testBit_eq
    intro j
    rcases lt_trichotomy j n.log2 with hj | hj | hj
    · rw [hlow j (by omega), Nat.testBit_two_pow_of_ne (by omega)]
    · rw [hj, Nat.testBit_log2 hn, Nat.testBit_two_pow_self]
    · rw [Nat.testBit_two_pow_of_ne (by omega)]
      exact Nat.testBit_lt_two_pow ((Nat.log2_lt hn).mp hj)
  · intro hp
    rw [hp, Nat.testBit_two_pow] at hset
    exact (of_decide_eq_true hset).symm

end CInt
