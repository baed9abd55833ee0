import Mathlib
import Lasagne.Library.CInt

namespace Lasagne.Math
open CInt

def ceilToPowerOfTwo (number : Nat) : Option Nat := do
  let a ← countTrailingZeros number
  let clz ← countLeadingZeros number
  let b := 63 - clz
  let b := if a ≠ b then b + 1 else b
  let rounded ← shiftOne b
  return toSize rounded

def log2 (number : Nat) : Option Nat := countTrailingZeros number

theorem clog_eq_log2 {n : Nat} (hn : n ≠ 0) :
    Nat.clog 2 n = if n = 2 ^ n.log2 then n.log2 else n.log2 + 1 := by
  have hle := Nat.log2_self_le hn
  have hlt := @Nat.lt_log2_self n
  split
  next h => conv_lhs => rw [h]
            exact Nat.clog_pow 2 _ (by omega)
  next h =>
    apply le_antisymm
    · exact (Nat.clog_le_iff_le_pow (by omega)).mpr hlt.le
    · exact (Nat.lt_clog_iff_pow_lt (by omega)).mpr (by omega)

theorem ceilToPowerOfTwo_clog {n : Nat} (hn : 0 < n) (h : n < 2 ^ 64) :
    ceilToPowerOfTwo n = (shiftOne (Nat.clog 2 n)).map toSize := by
  have hn0 : n ≠ 0 := by omega
  have hlog : n.log2 < 64 := (Nat.log2_lt hn0).mpr h
  obtain ⟨a, ha⟩ := countTrailingZeros_isSome hn0 h
  have hiff := countTrailingZeros_eq_log2_iff hn0 ha
  have hb : (if a ≠ n.log2 then n.log2 + 1 else n.log2) = Nat.clog 2 n := by
    rw [clog_eq_log2 hn0]
    by_cases hc : a = n.log2
    · rw [if_neg (by simpa using hc), if_pos (hiff.mp hc)]
    · rw [if_pos hc, if_neg (fun h => hc (hiff.mpr h))]
  simp only [ceilToPowerOfTwo, ha, countLeadingZeros, if_neg hn0, Option.bind_eq_bind,
    Option.bind_some, show 63 - (63 - n.log2) = n.log2 by omega, hb]
  exact Option.map_eq_bind.symm

theorem ceilToPowerOfTwo_eq {n : Nat} (hn : 0 < n) (h : n ≤ 2 ^ 30) :
    ceilToPowerOfTwo n = some (2 ^ Nat.clog 2 n) := by
  have hclog : Nat.clog 2 n ≤ 30 := (Nat.clog_le_iff_le_pow (by omega)).mpr h
  have hpow : 2 ^ Nat.clog 2 n ≤ 2 ^ 30 := Nat.pow_le_pow_right (by omega) hclog
  rw [ceilToPowerOfTwo_clog hn (by omega), shiftOne_of_lt (by omega), Option.map_some,
    toSize_ofNat (by omega)]

-- 1 << 31 is negative, and huge as a size
theorem ceilToPowerOfTwo_negative {n : Nat} (h : 2 ^ 30 < n) (h' : n ≤ 2 ^ 31) :
    ceilToPowerOfTwo n = some (2 ^ 64 - 2 ^ 31) := by
  have hle : Nat.clog 2 n ≤ 31 := (Nat.clog_le_iff_le_pow (by omega)).mpr h'
  have hlt : 30 < Nat.clog 2 n := (Nat.lt_clog_iff_pow_lt (by omega)).mpr h
  rw [ceilToPowerOfTwo_clog (by omega) (by omega), show Nat.clog 2 n = 31 by omega]
  rfl

theorem ceilToPowerOfTwo_undefined {n : Nat} (h : 2 ^ 31 < n) : ceilToPowerOfTwo n = none := by
  have hn0 : n ≠ 0 := by omega
  by_cases h' : n < 2 ^ 64
  · have hlt : 31 < Nat.clog 2 n := (Nat.lt_clog_iff_pow_lt (by omega)).mpr h
    rw [ceilToPowerOfTwo_clog (by omega) h', shiftOne, if_neg (by omega), if_neg (by omega)]
    rfl
  · have hlog : 64 ≤ n.log2 := (Nat.le_log2 hn0).mpr (by omega)
    cases hctz : countTrailingZeros n with
    | none => simp only [ceilToPowerOfTwo, hctz, Option.bind_eq_bind, Option.bind_none]
    | some a =>
      simp only [ceilToPowerOfTwo, hctz, countLeadingZeros, if_neg hn0, Option.bind_eq_bind,
        Option.bind_some, show 63 - (63 - n.log2) = 63 by omega]
      rw [shiftOne, if_neg (by split <;> omega), if_neg (by split <;> omega), Option.bind_none]

theorem ceilToPowerOfTwo_cases {n m : Nat} (h : ceilToPowerOfTwo n = some m) :
    (∃ k ≤ 30, m = 2 ^ k) ∨ m = 2 ^ 64 - 2 ^ 31 := by
  by_cases h31 : n ≤ 2 ^ 31
  · by_cases h30 : n ≤ 2 ^ 30
    · rcases Nat.eq_zero_or_pos n with rfl | hn
      · exact absurd h (by simp [ceilToPowerOfTwo, show countTrailingZeros 0 = none by decide])
      · have hclog : Nat.clog 2 n ≤ 30 := (Nat.clog_le_iff_le_pow (by omega)).mpr h30
        exact .inl ⟨_, hclog, Option.some.inj (h.symm.trans (ceilToPowerOfTwo_eq hn h30))⟩
    · exact .inr (Option.some.inj (h.symm.trans (ceilToPowerOfTwo_negative (by omega) h31)))
  · rw [ceilToPowerOfTwo_undefined (by omega)] at h
    exact absurd h (by simp)

theorem ceilToPowerOfTwo_two_pow {k : Nat} (hk : k ≤ 30) :
    ceilToPowerOfTwo (2 ^ k) = some (2 ^ k) := by
  rw [ceilToPowerOfTwo_eq (Nat.two_pow_pos _) (Nat.pow_le_pow_right (by omega) hk),
    Nat.clog_pow 2 _ (by omega)]

theorem ceilToPowerOfTwo_again {n m : Nat} (h : ceilToPowerOfTwo n = some m) :
    ceilToPowerOfTwo m = some m ∨ ceilToPowerOfTwo m = none := by
  obtain ⟨k, hk, rfl⟩ | rfl := ceilToPowerOfTwo_cases h
  · exact .inl (ceilToPowerOfTwo_two_pow hk)
  · exact .inr (ceilToPowerOfTwo_undefined (by omega))

theorem log2_two_pow {k : Nat} (h : k < 64) : log2 (2 ^ k) = some k :=
  countTrailingZeros_two_pow h

end Lasagne.Math
