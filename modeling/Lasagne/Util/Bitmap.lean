import Mathlib
import Lasagne.Library.ByteMemory
import Lasagne.Library.CInt

namespace Lasagne.Bitmap
open ByteMemory CInt

def byteOf (buffer : Nat) (bit : Int) : Nat := toSize (buffer + bit.tdiv 8)

def maskOf (bit : Int) : Option (BitVec 8) := do
  let mask ← shiftOne (bit.tmod 8)
  return BitVec.ofInt 8 mask

def flipBit (m : Memory) (buffer : Nat) (bit : Int) : Option Memory := do
  let mask ← maskOf bit
  let index := byteOf buffer bit
  return storeByte m index (m index ^^^ mask)

def getBit (m : Memory) (buffer : Nat) (bit : Int) : Option Nat := do
  let shifted ← shiftRight (m (byteOf buffer bit)).toNat (bit.tmod 8)
  return shifted % 2

def setBit (m : Memory) (buffer : Nat) (bit : Int) : Option Memory := do
  let mask ← maskOf bit
  let index := byteOf buffer bit
  return storeByte m index (m index ||| mask)

def resetBit (m : Memory) (buffer : Nat) (bit : Int) : Option Memory := do
  let mask ← maskOf bit
  let index := byteOf buffer bit
  return storeByte m index (m index &&& ~~~mask)

def bitAt (m : Memory) (buffer bit : Nat) : Bool := (m (buffer + bit / 8)).getLsbD (bit % 8)

def writeBit (m : Memory) (buffer bit : Nat) (f : BitVec 8 → BitVec 8 → BitVec 8) : Memory :=
  storeByte m (buffer + bit / 8) (f (m (buffer + bit / 8)) (1#8 <<< (bit % 8)))

theorem byteOf_ofNat {buffer bit : Nat} (h : buffer + bit / 8 < 18446744073709551616) :
    byteOf buffer (bit : Int) = buffer + bit / 8 := by
  rw [byteOf, show (buffer : Int) + (bit : Int).tdiv 8 = ((buffer + bit / 8 : Nat) : Int) by
    rw [Int.tdiv_eq_ediv_of_nonneg (by omega)]; omega, toSize_ofNat h]

theorem maskOf_ofNat (bit : Nat) : maskOf (bit : Int) = some (1#8 <<< (bit % 8)) := by
  have hmod : (bit : Int).tmod 8 = ((bit % 8 : Nat) : Int) := by
    rw [Int.tmod_eq_emod_of_nonneg (by omega)]; omega
  rw [maskOf, hmod, shiftOne_of_lt (by omega)]
  have hj : bit % 8 < 8 := Nat.mod_lt _ (by omega)
  generalize bit % 8 = j at hj
  interval_cases j <;> rfl

theorem maskOf_inj {n k : Nat} (h : maskOf (n : Int) = maskOf (k : Int)) : n % 8 = k % 8 := by
  rw [maskOf_ofNat, maskOf_ofNat, Option.some.injEq] at h
  have hn : n % 8 < 8 := Nat.mod_lt _ (by omega)
  have hk : k % 8 < 8 := Nat.mod_lt _ (by omega)
  have hbit := congrArg (fun b : BitVec 8 => b.getLsbD (n % 8)) h
  simp only [BitVec.getLsbD_shiftLeft, BitVec.getLsbD_one, hn, Nat.lt_irrefl, Nat.sub_self] at hbit
  simp at hbit
  omega

theorem getBit_ofNat {m : Memory} {buffer bit : Nat} (h : buffer + bit / 8 < 18446744073709551616) :
    getBit m buffer (bit : Int) = some (bitAt m buffer bit).toNat := by
  have hmod : (bit : Int).tmod 8 = ((bit % 8 : Nat) : Int) := by
    rw [Int.tmod_eq_emod_of_nonneg (by omega)]; omega
  rw [getBit, byteOf_ofNat h, hmod, shiftRight_of_lt _ (by omega)]
  rw [bitAt, BitVec.getLsbD, Nat.testBit_eq_decide_div_mod_eq]
  simp only [Option.bind_eq_bind, Option.bind_some, Option.pure_def, Option.some.injEq]
  rcases Nat.mod_two_eq_zero_or_one ((m (buffer + bit / 8)).toNat / 2 ^ (bit % 8)) with h | h <;>
    simp [h]

theorem flipBit_ofNat {m : Memory} {buffer bit : Nat} (h : buffer + bit / 8 < 18446744073709551616) :
    flipBit m buffer (bit : Int) = some (writeBit m buffer bit (· ^^^ ·)) := by
  rw [flipBit, maskOf_ofNat, byteOf_ofNat h]; rfl

theorem setBit_ofNat {m : Memory} {buffer bit : Nat} (h : buffer + bit / 8 < 18446744073709551616) :
    setBit m buffer (bit : Int) = some (writeBit m buffer bit (· ||| ·)) := by
  rw [setBit, maskOf_ofNat, byteOf_ofNat h]; rfl

theorem resetBit_ofNat {m : Memory} {buffer bit : Nat}
    (h : buffer + bit / 8 < 18446744073709551616) :
    resetBit m buffer (bit : Int) = some (writeBit m buffer bit (fun x y => x &&& ~~~y)) := by
  rw [resetBit, maskOf_ofNat, byteOf_ofNat h]; rfl

theorem writeBit_outside (m : Memory) (buffer bit : Nat) (f : BitVec 8 → BitVec 8 → BitVec 8)
    {x : Nat} (h : x ≠ buffer + bit / 8) : writeBit m buffer bit f x = m x :=
  storeByte_other m _ h

section pointwise

-- each of the three operators acts on bit i of the byte through one boolean function
variable {f : BitVec 8 → BitVec 8 → BitVec 8} {g : Bool → Bool → Bool}

theorem bitAt_writeBit (hf : ∀ x y : BitVec 8, ∀ i < 8,
      (f x y).getLsbD i = g (x.getLsbD i) (y.getLsbD i)) (hg : ∀ b, g b false = b)
    (m : Memory) (buffer bit k : Nat) :
    bitAt (writeBit m buffer bit f) buffer k =
      if k = bit then g (bitAt m buffer bit) true else bitAt m buffer k := by
  by_cases hbyte : buffer + k / 8 = buffer + bit / 8
  · rw [bitAt, writeBit, hbyte, storeByte_same, hf _ _ _ (Nat.mod_lt _ (by omega))]
    have hone : (1#8 <<< (bit % 8)).getLsbD (k % 8) = decide (k = bit) := by
      have hj : bit % 8 < 8 := Nat.mod_lt _ (by omega)
      have hi : k % 8 < 8 := Nat.mod_lt _ (by omega)
      have heq : (k = bit) ↔ (k % 8 = bit % 8) := by omega
      simp only [heq]
      generalize bit % 8 = j at hj
      generalize k % 8 = i at hi
      interval_cases j <;> interval_cases i <;> rfl
    rw [hone]
    split
    next h => subst h; simp [bitAt]
    next h => simp only [h, decide_false, hg, bitAt, hbyte]
  · rw [bitAt, writeBit, storeByte_other _ _ hbyte, if_neg (by rintro rfl; exact hbyte rfl), bitAt]

end pointwise

theorem bitAt_flip (m : Memory) (buffer bit k : Nat) :
    bitAt (writeBit m buffer bit (· ^^^ ·)) buffer k =
      if k = bit then !bitAt m buffer bit else bitAt m buffer k := by
  rw [bitAt_writeBit (g := xor) (by simp) (by simp)]
  simp

theorem bitAt_set (m : Memory) (buffer bit k : Nat) :
    bitAt (writeBit m buffer bit (· ||| ·)) buffer k =
      if k = bit then true else bitAt m buffer k := by
  rw [bitAt_writeBit (g := or) (by simp) (by simp)]
  simp

theorem bitAt_reset (m : Memory) (buffer bit k : Nat) :
    bitAt (writeBit m buffer bit (fun x y => x &&& ~~~y)) buffer k =
      if k = bit then false else bitAt m buffer k := by
  rw [bitAt_writeBit (g := fun a b => a && !b) _ (by simp)]
  · simp
  · intro x y i hi
    simp [hi]

theorem bitAt_congr {m m' : Memory} {buffer bit : Nat}
    (h : m' (buffer + bit / 8) = m (buffer + bit / 8)) :
    bitAt m' buffer bit = bitAt m buffer bit := by
  rw [bitAt, bitAt, h]

end Lasagne.Bitmap
