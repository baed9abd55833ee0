import Mathlib

namespace Numeral
variable {b n k : Nat} {ds es : List Nat}

-- the most significant digit comes first
def value (b : Nat) (ds : List Nat) : Nat := Nat.ofDigits b ds.reverse

structure Canonical (b : Nat) (ds : List Nat) : Prop where
  digits : ∀ d ∈ ds, d < b
  nonempty : ds ≠ []
  leading : ds.head? = some 0 → ds = [0]

def numeral (b n : Nat) : List Nat := if n = 0 then [0] else (b.digits n).reverse

-- the k low digits, the least significant first
def lowDigits (b : Nat) : Nat → Nat → List Nat
  | 0, _ => []
  | k + 1, n => n % b :: lowDigits b k (n / b)

theorem numeral_pos (h : n ≠ 0) : numeral b n = (b.digits n).reverse := if_neg h

theorem value_numeral : value b (numeral b n) = n := by
  by_cases h : n = 0
  · subst h
    simp [value, numeral]
  · rw [numeral_pos h, value, List.reverse_reverse, Nat.ofDigits_digits]

theorem canonical_numeral (hb : 1 < b) : Canonical b (numeral b n) := by
  by_cases h : n = 0
  · subst h
    exact ⟨by simp [numeral]; omega, by simp [numeral], fun _ => rfl⟩
  · have hne : b.digits n ≠ [] := Nat.digits_ne_nil_iff_ne_zero.mpr h
    rw [numeral_pos h]
    refine ⟨fun d hd => Nat.digits_lt_base hb (List.mem_reverse.mp hd), by simpa using hne, fun hz => ?_⟩
    rw [List.head?_reverse, List.getLast?_eq_some_getLast hne, Option.some.injEq] at hz
    exact absurd hz (Nat.getLast_digit_ne_zero b h)

theorem Canonical.eq_numeral (hb : 1 < b) (h : Canonical b ds) (hv : value b ds = n) :
    ds = numeral b n := by
  by_cases hz : ds.head? = some 0
  · have hn : n = 0 := by
      rw [← hv, h.leading hz]
      simp [value]
    rw [hn, h.leading hz]
    rfl
  · have hrev : ds.reverse ≠ [] := by simpa using h.nonempty
    have hlast : ∀ hne : ds.reverse ≠ [], ds.reverse.getLast hne ≠ 0 := by
      intro hne hl
      refine hz ?_
      rw [← List.getLast?_reverse, List.getLast?_eq_some_getLast hne, hl]
    have hdigits := Nat.digits_ofDigits b hb ds.reverse
      (fun d hd => h.digits d (List.mem_reverse.mp hd)) hlast
    have hn : n ≠ 0 := by
      rintro rfl
      rw [← value, hv, Nat.digits_zero] at hdigits
      exact hrev hdigits.symm
    rw [numeral_pos hn, ← hv, value, hdigits, List.reverse_reverse]

theorem lowDigits_length : (lowDigits b k n).length = k := by
  induction k generalizing n with
  | zero => rfl
  | succ k ih => rw [lowDigits, List.length_cons, ih]

theorem lowDigits_lt (hb : 0 < b) : ∀ d ∈ lowDigits b k n, d < b := by
  induction k generalizing n with
  | zero => simp [lowDigits]
  | succ k ih =>
    intro d hd
    rcases List.mem_cons.mp hd with rfl | hd
    · exact Nat.mod_lt _ hb
    · exact ih d hd

theorem ofDigits_lowDigits : Nat.ofDigits b (lowDigits b k n) = n % b ^ k := by
  induction k generalizing n with
  | zero => simp [lowDigits, Nat.mod_one]
  | succ k ih =>
    rw [lowDigits, Nat.ofDigits_cons, ih, Nat.pow_succ', Nat.mod_mul]

end Numeral
