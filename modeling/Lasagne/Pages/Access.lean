import Mathlib
import Lasagne.Pages.Fault

namespace Lasagne.Pages
open RadixTree StateRun
open X86 (canonical)

abbrev Byte := BitVec 8

def byteOf (word address : Word) : Byte := word.extractLsb' (8 * (address.toNat % 8)) 8

def withByte (word address : Word) (value : Byte) : Word :=
  word &&& ~~~((0xFF : Word) <<< (8 * (address.toNat % 8))) |||
    value.setWidth 64 <<< (8 * (address.toNat % 8))

def loadByte (address : Word) : Kernel Byte := do
  let word ← load address
  pure (byteOf word address)

def storeByte (address : Word) (value : Byte) : Kernel Unit := do
  let word ← load address
  store address (withByte word address value)

def writable (m : Machine) (address : Word) : Bool := (leaf m address).any fun e => e &&& pgRw != 0

inductive Access where
  | load (address : Word)
  | store (address : Word) (value : Byte) (errorCode : Word)

-- a store the entry does not allow raises a page fault and is tried again
def storeAccess (address : Word) (value : Byte) (errorCode : Word) : Kernel Unit := do
  let m ← get
  if writable m address then storeByte address value
  else do
    pageFaultHandler address errorCode
    let m ← get
    if writable m address then storeByte address value else throw (.fault address)

def perform : List Access → Kernel (List Byte)
  | [] => pure []
  | .load address :: rest => do
    let value ← loadByte address
    let values ← perform rest
    pure (value :: values)
  | .store address value errorCode :: rest => do
    storeAccess address value errorCode
    perform rest

-- accesses to the range, whose stores may fault as writes to a present page
def Access.Permitted (start size : Word) : Access → Prop
  | .load address => inRange start size address
  | .store address _ errorCode => inRange start size address ∧
    errorCode &&& pfProtViolation ≠ 0 ∧ errorCode &&& pfWrite ≠ 0

def after : List Access → (Word → Byte) → Word → Byte
  | [], memory => memory
  | .load _ :: rest, memory => after rest memory
  | .store address value _ :: rest, memory => after rest (Function.update memory address value)

def answers : List Access → (Word → Byte) → List Byte
  | [], _ => []
  | .load address :: rest, memory => memory address :: answers rest memory
  | .store address value _ :: rest, memory => answers rest (Function.update memory address value)

section bytes
variable {w a b : Word} {x : Byte}

theorem getLsbD_byteMask (k i : Nat) (hi : i < 64) :
    ((0xFF : Word) <<< k).getLsbD i = (decide (k ≤ i) && decide (i < k + 8)) := by
  rw [BitVec.getLsbD_shiftLeft, show (0xFF : Word) = BitVec.ofNat 64 (2 ^ 8 - 1) from rfl,
    BitVec.getLsbD_ofNat, Nat.testBit_two_pow_sub_one]
  by_cases h : k ≤ i
  · simp [hi, h, show ¬ i < k by omega, show i - k < 64 by omega]
    omega
  · simp [hi, h, show i < k by omega]

theorem getLsbD_withByte {j : Nat} (hj : j < 64) : (withByte w a x).getLsbD j =
    if 8 * (a.toNat % 8) ≤ j ∧ j < 8 * (a.toNat % 8) + 8 then x.getLsbD (j - 8 * (a.toNat % 8))
    else w.getLsbD j := by
  rw [withByte, BitVec.getLsbD_or, BitVec.getLsbD_and, BitVec.getLsbD_not,
    getLsbD_byteMask _ _ hj, BitVec.getLsbD_shiftLeft, BitVec.getLsbD_setWidth]
  by_cases hlow : 8 * (a.toNat % 8) ≤ j
  · by_cases hhigh : j < 8 * (a.toNat % 8) + 8
    · simp [hj, hlow, hhigh, Nat.not_lt.mpr hlow, show j - 8 * (a.toNat % 8) < 64 by omega]
    · simp [hj, hlow, hhigh, BitVec.getLsbD_of_ge x (j - 8 * (a.toNat % 8)) (by omega)]
  · simp [hj, hlow, Nat.not_le.mp hlow]

theorem byteOf_withByte (h : a.toNat % 8 = b.toNat % 8) : byteOf (withByte w a x) b = x := by
  refine BitVec.eq_of_getLsbD_eq fun i hi => ?_
  rw [byteOf, BitVec.getLsbD_extractLsb', getLsbD_withByte (by omega), if_pos (by omega)]
  simp [hi, h]

theorem byteOf_withByte_other (h : a.toNat % 8 ≠ b.toNat % 8) :
    byteOf (withByte w a x) b = byteOf w b := by
  refine BitVec.eq_of_getLsbD_eq fun i hi => ?_
  rw [byteOf, byteOf, BitVec.getLsbD_extractLsb', BitVec.getLsbD_extractLsb',
    getLsbD_withByte (by omega), if_neg (by omega)]

theorem byteOf_zero : byteOf 0 a = 0 := by
  refine BitVec.eq_of_getLsbD_eq fun i hi => ?_
  rw [byteOf, BitVec.getLsbD_extractLsb']
  simp

theorem address_ext (hpage : a >>> 12 = b >>> 12) (hword : index a 3 = index b 3)
    (hbyte : a.toNat % 8 = b.toNat % 8) : a = b := by
  have hpage := page_eq_iff.mp hpage
  have hword := congrArg BitVec.toNat hword
  rw [index, index, BitVec.extractLsb'_toNat, BitVec.extractLsb'_toNat, Nat.shiftRight_eq_div_pow,
    Nat.shiftRight_eq_div_pow] at hword
  refine BitVec.eq_of_toNat_eq ?_
  omega

theorem canonical_congr (h : a >>> 12 = b >>> 12) (hb : canonical b) : canonical a := by
  have hbit (i : Nat) (hi : 12 ≤ i) : a.getLsbD i = b.getLsbD i := by
    have := congrArg (fun w => w.getLsbD (i - 12)) h
    simpa only [BitVec.getLsbD_ushiftRight, Nat.add_sub_cancel' hi] using this
  refine (canonical_iff a).mpr fun i h48 hi => ?_
  rw [hbit i (by omega), hbit 47 (by decide)]
  exact (canonical_iff b).mp hb i h48 hi

end bytes

end Lasagne.Pages
