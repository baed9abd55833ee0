import Mathlib
import Lasagne.Library.Numeral

namespace Lasagne.Printk
open Numeral

abbrev Char := BitVec 8

-- what backend is called with, in order; none is a write past the end of str
abbrev Output := Option (List Char)

def zeroChar : Char := 0x30

def minusChar : Char := 0x2d

def upperA : Char := 0x41

def ulongStr : Nat := 25

def hexStr : Nat := 16

def printString (s : List Char) : List Char := s.takeWhile fun c => c ≠ 0

-- room is what is left of str; the digits come in reverse
def fillUlong : Nat → BitVec 64 → Output
  | 0, n => if n = 0 then some [] else none
  | room + 1, n =>
    if n = 0 then some []
    else (fillUlong room (n / 10)).map fun str => (n % 10 + 0x30).setWidth 8 :: str

def printUlong (n : BitVec 64) : Output := do
  let zero := if n = 0 then [zeroChar] else []
  let str ← fillUlong ulongStr n
  return zero ++ str.reverse

def printLong (n : BitVec 64) : Output :=
  if n.slt 0 then (printUlong (-n)).map fun cs => minusChar :: cs else printUlong n

def fillHex : Nat → Nat → BitVec 64 → Output
  | 0, _, _ => some []
  | _ + 1, 0, _ => none
  | len + 1, room + 1, n => (fillHex len room (n / 16)).map fun str => (n % 16).setWidth 8 :: str

def hexChar (c : Char) : Char :=
  if 0 ≤ c.toInt ∧ c.toInt ≤ 9 then c + zeroChar else c - 10 + upperA

def printHex (n : BitVec 64) (len : Nat) : Output := do
  let str ← fillHex len hexStr n
  return printString [zeroChar, 0x78, 0] ++ str.reverse.map hexChar

def decimalDigit (d : Nat) : Char := BitVec.ofNat 8 (0x30 + d)

def hexDigit (d : Nat) : Char := BitVec.ofNat 8 (if d < 10 then 0x30 + d else 0x41 + (d - 10))

def Decimal (cs : List Char) (n : Nat) : Prop :=
  ∃ ds, cs = ds.map decimalDigit ∧ Canonical 10 ds ∧ value 10 ds = n

def Hex (cs : List Char) (len n : Nat) : Prop :=
  ∃ ds, cs = ds.map hexDigit ∧ ds.length = len ∧ (∀ d ∈ ds, d < 16) ∧ value 16 ds = n

section decimal
variable {n : BitVec 64} {room : Nat} {cs : List Char} {v : Nat}

theorem lowDecimal (n : BitVec 64) :
    (n % 10 + 0x30).setWidth 8 = decimalDigit (n.toNat % 10) := by
  refine BitVec.eq_of_toNat_eq ?_
  simp only [BitVec.ofNat_eq_ofNat, BitVec.toNat_setWidth, BitVec.toNat_add, BitVec.toNat_umod,
    BitVec.toNat_ofNat, decimalDigit, Nat.reducePow, Nat.reduceMod]
  omega

theorem fillUlong_eq (room : Nat) {n : BitVec 64} (h : n.toNat < 10 ^ room) :
    fillUlong room n = some ((Nat.digits 10 n.toNat).map decimalDigit) := by
  induction room generalizing n with
  | zero =>
    obtain rfl : n = 0 := BitVec.eq_of_toNat_eq (by simpa using h)
    rfl
  | succ room ih =>
    rw [fillUlong]
    by_cases hn : n = 0
    · rw [if_pos hn, hn]
      rfl
    · have hpos : 0 < n.toNat := Nat.pos_of_ne_zero fun hz => hn (BitVec.eq_of_toNat_eq hz)
      have hdiv : (n / 10).toNat = n.toNat / 10 := BitVec.toNat_udiv
      rw [if_neg hn, ih (by rw [hdiv]; rw [pow_succ] at h; omega), hdiv, lowDecimal,
        Nat.digits_def' (by decide) hpos]
      rfl

theorem printUlong_eq (n : BitVec 64) :
    printUlong n = some ((numeral 10 n.toNat).map decimalDigit) := by
  have hlt : n.toNat < 10 ^ ulongStr := by
    have := n.isLt
    simp only [ulongStr]
    omega
  rw [printUlong, fillUlong_eq ulongStr hlt, numeral]
  by_cases hn : n = 0
  · subst hn
    rfl
  · have hnat : n.toNat ≠ 0 := fun hz => hn (BitVec.eq_of_toNat_eq hz)
    rw [if_neg hn, if_neg hnat, List.map_reverse]
    rfl

theorem toNat_neg_of_negative (h : n.slt 0 = true) : (-n).toNat = n.toInt.natAbs := by
  have hneg : n.toInt < 0 := by simpa [BitVec.slt] using h
  rw [BitVec.toInt_eq_toNat_cond] at hneg ⊢
  rw [BitVec.toNat_neg]
  have := n.isLt
  split at hneg
  · omega
  · rw [if_neg (by assumption)]
    omega

theorem toNat_of_nonneg (h : ¬ n.slt 0 = true) : n.toNat = n.toInt.natAbs := by
  have hpos : ¬ n.toInt < 0 := by simpa [BitVec.slt] using h
  rw [BitVec.toInt_eq_toNat_cond] at hpos ⊢
  have := n.isLt
  split at hpos
  · rw [if_pos (by assumption)]
    omega
  · omega

theorem printLong_eq (n : BitVec 64) : printLong n =
    some ((if n.toInt < 0 then [minusChar] else []) ++
      (numeral 10 n.toInt.natAbs).map decimalDigit) := by
  have hiff : n.slt 0 = true ↔ n.toInt < 0 := by simp [BitVec.slt]
  by_cases h : n.slt 0 = true
  · rw [printLong, if_pos h, if_pos (hiff.mp h), printUlong_eq, toNat_neg_of_negative h]
    rfl
  · rw [printLong, if_neg h, if_neg fun hn => h (hiff.mpr hn), printUlong_eq, toNat_of_nonneg h]
    rfl

theorem decimal_iff : Decimal cs v ↔ cs = (numeral 10 v).map decimalDigit := by
  constructor
  · rintro ⟨ds, rfl, hc, hv⟩
    rw [hc.eq_numeral (by decide) hv]
  · intro h
    exact ⟨_, h, canonical_numeral (by decide), value_numeral⟩

end decimal

section hex
variable {n : BitVec 64} {len room : Nat}

theorem lowHex (n : BitVec 64) : (n % 16).setWidth 8 = BitVec.ofNat 8 (n.toNat % 16) := by
  refine BitVec.eq_of_toNat_eq ?_
  simp only [BitVec.ofNat_eq_ofNat, BitVec.toNat_setWidth, BitVec.toNat_umod, BitVec.toNat_ofNat]

theorem hexChar_digit {d : Nat} (h : d < 16) : hexChar (BitVec.ofNat 8 d) = hexDigit d := by
  interval_cases d <;> rfl

theorem fillHex_eq (len : Nat) {room : Nat} {n : BitVec 64} (h : len ≤ room) :
    fillHex len room n = some ((lowDigits 16 len n.toNat).map (BitVec.ofNat 8)) := by
  induction len generalizing room n with
  | zero => rfl
  | succ len ih =>
    obtain ⟨room, rfl⟩ := Nat.exists_eq_add_one_of_ne_zero (Nat.ne_of_gt (Nat.zero_lt_of_lt h))
    have hdiv : (n / 16).toNat = n.toNat / 16 := BitVec.toNat_udiv
    rw [fillHex, ih (Nat.le_of_succ_le_succ h), hdiv, lowHex]
    rfl

theorem printHex_eq (h : len ≤ hexStr) : ∃ cs, printHex n len = some (zeroChar :: 0x78 :: cs) ∧
    Hex cs len (n.toNat % 16 ^ len) := by
  have hlt := lowDigits_lt (b := 16) (k := len) (n := n.toNat) (by decide)
  refine ⟨(lowDigits 16 len n.toNat).reverse.map hexDigit, ?_, _, rfl, ?_, fun d hd => ?_, ?_⟩
  · rw [printHex, fillHex_eq len h]
    have hmap : ((lowDigits 16 len n.toNat).map (BitVec.ofNat 8)).reverse.map hexChar =
        (lowDigits 16 len n.toNat).reverse.map hexDigit := by
      rw [← List.map_reverse, List.map_map]
      exact List.map_congr_left fun d hd => hexChar_digit (hlt d (List.mem_reverse.mp hd))
    rw [Option.bind_eq_bind, Option.bind_some, hmap]
    rfl
  · rw [List.length_reverse, lowDigits_length]
  · exact hlt d (List.mem_reverse.mp hd)
  · rw [value, List.reverse_reverse, ofDigits_lowDigits]

end hex

theorem prints_numbers (n : BitVec 64) :
    (∃ cs, printUlong n = some cs ∧ ∀ ds, Decimal ds n.toNat ↔ ds = cs) ∧
      (∃ cs, printLong n = some ((if n.toInt < 0 then [minusChar] else []) ++ cs) ∧
        ∀ ds, Decimal ds n.toInt.natAbs ↔ ds = cs) ∧
      (∃ cs, printHex n 8 = some (zeroChar :: 0x78 :: cs) ∧ Hex cs 8 (n.toNat % 16 ^ 8)) ∧
      ∃ cs, printHex n 16 = some (zeroChar :: 0x78 :: cs) ∧ Hex cs 16 (n.toNat % 16 ^ 16) :=
  ⟨⟨_, printUlong_eq n, fun _ => decimal_iff⟩, ⟨_, printLong_eq n, fun _ => decimal_iff⟩,
    printHex_eq (by decide), printHex_eq le_rfl⟩

end Lasagne.Printk
